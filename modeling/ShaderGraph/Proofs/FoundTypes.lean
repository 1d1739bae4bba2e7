import ShaderGraph.Proofs.Conversions
import ShaderGraph.Proofs.Inputs
import ShaderGraph.Proofs.LexicalTypes

/-!
# Types that were found

A build finds a type once for a node and the contexts around it, and keeps it. Some nodes take their
type from another node (`Plan.Takes`): a stack, a cache node and a varying under the same contexts, a
context node inside its own context, and a context value where the value that is lent is found. So
the types that were found fit together (`BuildState.Coherent`): with the type of such a node the same
type was found for the other. Finding types keeps this up (`typeOf_finds`).
-/

namespace ShaderGraph

/-- Whether a node is a struct layout. -/
def NodeOf.isStructType {ρ μ : Type} : NodeOf ρ μ → Bool
  | structType .. => true
  | _ => false

/-- The node whose type and contexts a node shares. -/
def NodeOf.inner? {ρ μ : Type} : NodeOf ρ μ → Option ρ
  | varying source .. => some source
  | stack _ output => output
  | cache inner _ => some inner
  | _ => none

namespace Plan

/-- A situation takes its type from another. -/
inductive Takes (p : Plan) : Situation → Situation → Prop
  | alike {id c m : NodeId} {n : Node} {around : List NodeId} :
      p.node id = .ok n → n.inner? = some c → p.resolve c = .ok m →
      Takes p ⟨id, around⟩ ⟨m, around⟩
  | inside {id c m : NodeId} {values : List (String × NodeId)} {around : List NodeId} :
      p.node id = .ok (.context c values) → p.resolve c = .ok m →
      Takes p ⟨id, around⟩ ⟨m, id :: around⟩
  | lent {id c m : NodeId} {key : String} {fallback : Option NodeId}
      {around outer : List NodeId} :
      p.node id = .ok (.contextValue key fallback) → p.lookup? key around = some (c, outer) →
      p.resolve c = .ok m → Takes p ⟨id, around⟩ ⟨m, outer⟩
  | fallback {id c m : NodeId} {key : String} {around : List NodeId} :
      p.node id = .ok (.contextValue key (some c)) → p.lookup? key around = none →
      p.resolve c = .ok m → Takes p ⟨id, around⟩ ⟨m, around⟩

/-- The type of the result of a native function, as its text says. -/
def resultOf? (p : Plan) (f : FunctionId) : Option ValueType :=
  (p.graph.function? f).bind fun native =>
    (Native.Declaration.read native.dialect native.source).toOption.map Native.Declaration.result

/-- Whether what is built in the place of a node is a struct layout. -/
def isLayout (p : Plan) (id : NodeId) : Bool :=
  ((p.resolve id).toOption.bind fun m => (p.node m).toOption).any NodeOf.isStructType

theorem isLayout_of_node {p : Plan} {id m : NodeId} {n : Node} (hm : p.resolve id = .ok m)
    (hn : p.node m = .ok n) : p.isLayout id = n.isStructType := by
  unfold isLayout
  rw [hm, Except.toOption, Option.bind_some, hn, Except.toOption, Option.any_some]

/-- What a node of a type is like, whatever the nodes that it refers to. -/
def Suits (p : Plan) (t : ValueType) : Node → Prop
  | .convert _ target => t = target
  | .call f _ => p.resultOf? f = some t
  | .assign .. | .loop .. | .jump _ | .stack _ none => t = .void
  | .math m args => args.length = m.arity
  | .struct layout _ => p.isLayout layout = true
  | .const type _ => t = type
  | .join .. => t.heldStruct? = none
  | _ => True

/-- A struct has a layout with a member of a name. -/
def HasMember (p : Plan) (struct name : String) : Prop :=
  ∃ members, p.structs.get? struct = some members ∧ ∃ m ∈ members, m.name = name

end Plan

namespace BuildState

variable {p : Plan} {s s' s'' : BuildState} {σ τ : Situation} {t : ValueType}

/-- The type that was found for a node under some contexts. -/
def typeIn? (s : BuildState) (σ : Situation) : Option ValueType :=
  (s.frames.number? σ.around).bind fun frame => s.types.get? (σ.node, frame)

/-- A type that was found fits what else was found. -/
structure Fits (p : Plan) (s : BuildState) (σ : Situation) (t : ValueType) : Prop where
  taken : ∀ {τ}, p.Takes σ τ → s.typeIn? τ = some t
  own : ∀ {n}, p.node σ.node = .ok n → p.Suits t n
  /-- A member is taken from a struct that has it. -/
  member : ∀ {base name m}, p.node σ.node = .ok (.member base name) → p.resolve base = .ok m →
    ∃ struct, s.typeIn? ⟨m, σ.around⟩ = some (.struct struct) ∧ p.HasMember struct name

/-- The types that were found fit together. -/
structure Coherent (p : Plan) (s : BuildState) : Prop where
  frames : s.frames.Regular
  types : ∀ {id frame t}, s.types.get? (id, frame) = some t →
    ∃ around, s.frames.number? around = some frame ∧ s.Fits p ⟨id, around⟩ t
  functions : ∀ f e, s.functions.get? f = some e → p.resultOf? f = some e.result
  /-- A varying has the type that its source has under some contexts. -/
  varyings : ∀ id v, s.varyings.get? id = some v →
    ∀ m, p.resolve v.source = .ok m → ∃ around, s.typeIn? ⟨m, around⟩ = some v.type

/-- Between two states contexts may get numbers, types may be found and varyings entered; what was
found stays, and only the location of a varying changes. -/
structure Finds (p : Plan) (s s' : BuildState) : Prop where
  frames : s.frames.Extends s'.frames
  types : ∀ {k t}, s.types.get? k = some t → s'.types.get? k = some t
  varyings : ∀ {id v}, s.varyings.get? id = some v →
    ∃ location, s'.varyings.get? id = some { v with location := location }
  coherent : s.Coherent p → s'.Coherent p

theorem typeIn?_of_get? {frame : FrameId} (hn : s.frames.number? σ.around = some frame) :
    s.typeIn? σ = s.types.get? (σ.node, frame) := by
  unfold typeIn?
  rw [hn, Option.bind_some]

namespace Fits

theorem convert {source : NodeId} {target : ValueType} (h : s.Fits p σ t)
    (hn : p.node σ.node = .ok (.convert source target)) : t = target := h.own hn

theorem call {f : FunctionId} {args : List NodeId} (h : s.Fits p σ t)
    (hn : p.node σ.node = .ok (.call f args)) : p.resultOf? f = some t := h.own hn

/-- A type still fits when the types that were found stay. -/
theorem grow (h : s.Fits p σ t) (grown : ∀ {σ t}, s.typeIn? σ = some t → s'.typeIn? σ = some t) :
    s'.Fits p σ t where
  taken hτ := grown (h.taken hτ)
  own := h.own
  member hn hm := by
    obtain ⟨struct, found, has⟩ := h.member hn hm
    exact ⟨struct, grown found, has⟩

end Fits

namespace Finds

theorem refl (s : BuildState) : s.Finds p s := ⟨.refl _, id, fun hv => ⟨_, hv⟩, id⟩

theorem trans (h : s.Finds p s') (h' : s'.Finds p s'') : s.Finds p s'' where
  frames := h.frames.trans h'.frames
  types := h'.types ∘ h.types
  varyings hv := by
    obtain ⟨_, hv'⟩ := h.varyings hv
    obtain ⟨location, hv''⟩ := h'.varyings hv'
    exact ⟨location, hv''⟩
  coherent := h'.coherent ∘ h.coherent

theorem typeIn? (h : s.Finds p s') (ht : s.typeIn? σ = some t) : s'.typeIn? σ = some t := by
  obtain ⟨frame, hn, ht⟩ := Option.bind_eq_some_iff.1 ht
  rw [typeIn?_of_get? (FrameTable.number?_of_extends h.frames hn)]
  exact h.types ht

/-- A change of other things than contexts, types, functions and varyings. -/
theorem of_eq (hf : s'.frames = s.frames) (ht : s'.types = s.types)
    (hp : s'.functions = s.functions) (hv : s'.varyings = s.varyings) : s.Finds p s' := by
  have same : ∀ σ, s'.typeIn? σ = s.typeIn? σ := fun σ => by
    unfold BuildState.typeIn?
    rw [hf, ht]
  refine ⟨hf ▸ .refl _, fun hk => ht ▸ hk, fun hg => ⟨_, hv ▸ hg⟩,
    fun h => ⟨hf ▸ h.frames, fun hk => ?_, ?_, ?_⟩⟩
  · obtain ⟨around, hn, fits⟩ := h.types (ht ▸ hk)
    exact ⟨around, hf ▸ hn, fits.grow (same _).trans⟩
  · rw [hp]
    exact h.functions
  · rw [hv]
    intro id v hg m hm
    obtain ⟨around, found⟩ := h.varyings id v hg m hm
    exact ⟨around, (same _).trans found⟩

theorem of_core (h : s'.core = s.core) : s.Finds p s' :=
  of_eq (core_frames h) (congrArg Core.types h) (core_functions h) (core_varyings h)

/-- Growing tables of contexts and types keep up what fits. -/
theorem of_grown (hf : s.frames.Extends s'.frames)
    (ht : ∀ {k t}, s.types.get? k = some t → s'.types.get? k = some t)
    (hv : s'.varyings = s.varyings)
    (hc : s.Coherent p → (∀ {σ t}, s.typeIn? σ = some t → s'.typeIn? σ = some t) → s'.Coherent p) :
    s.Finds p s' := by
  refine ⟨hf, ht, fun hg => ⟨_, hv ▸ hg⟩, fun h => hc h fun {σ t} found => ?_⟩
  obtain ⟨frame, hn, found⟩ := Option.bind_eq_some_iff.1 found
  rw [typeIn?_of_get? (FrameTable.number?_of_extends hf hn)]
  exact ht found

/-- A sequence of contexts gets a number. -/
theorem extend {parent : FrameId} {m : NodeId} :
    s.Finds p { s with frames := (s.frames.extend parent m).2 } := by
  refine of_grown FrameTable.extends_extend id rfl fun h grown => ⟨h.frames.extend, fun hk => ?_,
    h.functions, fun id v hg m hm => ?_⟩
  · obtain ⟨around, hn, fits⟩ := h.types hk
    exact ⟨around, FrameTable.number?_of_extends FrameTable.extends_extend hn, fits.grow grown⟩
  · obtain ⟨around, found⟩ := h.varyings id v hg m hm
    exact ⟨around, grown found⟩

/-- A type that fits is kept where none was known. -/
theorem put {m : NodeId} {around : List NodeId} {frame : FrameId}
    (hn : s.frames.number? around = some frame) (hnew : s.types.get? (m, frame) = none)
    (ht : s.Fits p ⟨m, around⟩ t) :
    s.Finds p { s with types := s.types.put (m, frame) t } := by
  have stays : ∀ {k u}, s.types.get? k = some u → (s.types.put (m, frame) t).get? k = some u := by
    intro k u hk
    rw [OrderedMap.get?_put, if_neg]
    · exact hk
    · rintro rfl
      cases hnew.symm.trans hk
  refine of_grown (.refl _) stays rfl fun h grown => ⟨h.frames, fun {id f u} hk => ?_, h.functions,
    fun id v hg m hm => ?_⟩
  · simp only [OrderedMap.get?_put] at hk
    split at hk
    · next he =>
      cases he
      cases hk
      exact ⟨around, hn, ht.grow grown⟩
    · obtain ⟨around, hn, fits⟩ := h.types hk
      exact ⟨around, hn, fits.grow grown⟩
  · obtain ⟨around, found⟩ := h.varyings id v hg m hm
    exact ⟨around, grown found⟩

/-- A function is entered with the result that its text says. -/
theorem putFunction {f : FunctionId} {e : FunctionEntry} (he : p.resultOf? f = some e.result) :
    s.Finds p { s with functions := s.functions.put f e } := by
  refine ⟨.refl _, id, fun hg => ⟨_, hg⟩,
    fun h => ⟨h.frames, fun hk => ?_, fun f' e' hg => ?_, h.varyings⟩⟩
  · obtain ⟨around, hn, fits⟩ := h.types hk
    exact ⟨around, hn, fits.grow id⟩
  · rcases OrderedMap.get?_of_put hg with ⟨rfl, rfl⟩ | ⟨-, hg⟩
    · exact he
    · exact h.functions f' e' hg

/-- A varying is entered with the type that its source has under some contexts, or its location is
changed. -/
theorem putVarying {id : NodeId} {v : VaryingEntry}
    (hs : ∀ v', s.varyings.get? id = some v' → ∃ location, v = { v' with location := location })
    (hv : s.Coherent p → ∀ m, p.resolve v.source = .ok m →
      ∃ around, s.typeIn? ⟨m, around⟩ = some v.type) :
    s.Finds p { s with varyings := s.varyings.put id v } := by
  refine ⟨.refl _, fun hk => hk, fun {id' v'} hg => ?_,
    fun h => ⟨h.frames, fun hk => ?_, h.functions, fun id' v' hg => ?_⟩⟩
  · show ∃ location, (s.varyings.put id v).get? id' = _
    rw [OrderedMap.get?_put]
    split
    · next he =>
      subst he
      obtain ⟨location, rfl⟩ := hs v' hg
      exact ⟨location, rfl⟩
    · exact ⟨_, hg⟩
  · obtain ⟨around, hn, fits⟩ := h.types hk
    exact ⟨around, hn, fits.grow fun ht => ht⟩
  · rcases OrderedMap.get?_of_put hg with ⟨-, rfl⟩ | ⟨-, hg⟩
    · exact hv h
    · exact h.varyings id' v' hg

end Finds

/-- A type that was found under contexts fits. -/
theorem Coherent.fits (h : s.Coherent p) (ht : s.typeIn? σ = some t) : s.Fits p σ t := by
  obtain ⟨frame, hn, ht⟩ := Option.bind_eq_some_iff.1 ht
  obtain ⟨around, hn', fits⟩ := h.types ht
  cases h.frames.number?_inj hn hn'
  exact fits

/-- A type that was found suits its node. -/
theorem Coherent.suits {m : NodeId} {frame : FrameId} {n : Node} (h : s.Coherent p)
    (ht : s.types.get? (m, frame) = some t) (hn : p.node m = .ok n) : p.Suits t n := by
  obtain ⟨around, -, fits⟩ := h.types ht
  exact fits.own hn

/-- With the type of a member that of the struct was found. -/
theorem Coherent.struct {m base b : NodeId} {name : String} {frame : FrameId} (h : s.Coherent p)
    (ht : s.types.get? (m, frame) = some t) (hn : p.node m = .ok (.member base name))
    (hb : p.resolve base = .ok b) :
    ∃ struct, s.types.get? (b, frame) = some (.struct struct) ∧ p.HasMember struct name := by
  obtain ⟨around, number, fits⟩ := h.types ht
  obtain ⟨struct, found, has⟩ := fits.member hn hb
  rw [typeIn?_of_get? (σ := ⟨b, around⟩) number] at found
  exact ⟨struct, found, has⟩

end BuildState

/-- What keeps to the types that were found, under the context nodes `around`, while those of the
keys are being found. -/
def Law.finding (p : Plan) (around : List NodeId) (keys : List (NodeId × FrameId)) : Law where
  inv env s := (env.plan = p ∧ env.typing = keys) ∧ s.Coherent p ∧ Framed p s.frames env.frames around
  rel _ s s' := s.Finds p s' ∧ ∀ k ∈ keys, s.types.get? k = none → s'.types.get? k = none
  ends _ := True
  refl s := ⟨.refl s, fun _ _ h => h⟩
  trans h h' := ⟨h.1.trans h'.1, fun k hk hn => h'.2 k hk (h.2 k hk hn)⟩
  mono hi hr := ⟨hi.1, hr.1.coherent hi.2.1, hi.2.2.mono hr.1.frames⟩
  loops _ hi := hi
  ordinary _ := trivial
  located _ := trivial

namespace Build

open Law Plan BuildState

variable {p : Plan} {around : List NodeId} {keys : List (NodeId × FrameId)} {env : Env}
  {s : BuildState} {id m : NodeId} {n : Node} {α : Type}

theorem finding_tabular : (Law.finding p around keys).Tabular True where
  exhausted _ := trivial
  founded _ := absurd trivial
  rel _ h := ⟨.of_core h, fun k _ hn => (congrArg (fun c => c.types.get? k) h).trans hn⟩

/-! ### Functions -/

theorem registerFunctionIn_finds (fuel : Nat) (path : List FunctionId) (f : FunctionId) :
    (Law.finding p around keys).Yields env (registerFunctionIn fuel path f) fun e =>
      p.resultOf? f = some e.result := by
  induction fuel generalizing path f with
  | zero => exact fun _ _ => trivial
  | succ fuel ih =>
    rintro s ⟨⟨rfl, typing⟩, coherent, framed⟩
    rw [registerFunctionIn, meets_bind, meets_get]
    cases found : s.functions.get? f with
    | some e => exact ⟨Law.refl _ s, coherent.functions f e found⟩
    | none =>
      refine Yields.check rfl (fun _ => .read ?_) s ⟨⟨rfl, typing⟩, coherent, framed⟩
      split
      · exact .fail rfl
      · next native known =>
        refine .after (.mapM fun i _ => (ih _ i).keeps) fun included => ?_
        refine .bind (.ofExcept (fun _ _ => rfl) fun d hd => hd) fun d hd => ?_
        have entry : (Law.finding env.plan around keys).Yields env
            (functionEntry native d (included.map FunctionEntry.source)) fun e =>
              e.result = d.result := by
          have keeps : (Law.finding env.plan around keys).Keeps env
              (functionEntry native d (included.map FunctionEntry.source)) :=
            finding_tabular.keeps fun _ => functionEntry_tables native d _
          exact fun s hs => (keeps s hs).and
            ((functionEntry_renders native d _).imp fun e _ he => he.1.result)
        refine .bind entry fun e he => ?_
        have result : env.plan.resultOf? f = some e.result := by
          unfold Plan.resultOf?
          rw [known, Option.bind_some, hd, he]
          rfl
        exact .after (fun s _ => ⟨.putFunction result, fun _ _ hn => hn⟩) fun _ => .pure result

theorem registerFunction_finds (f : FunctionId) :
    (Law.finding p around keys).Yields env (registerFunction f) fun e =>
      p.resultOf? f = some e.result :=
  .after (.read (.pure _)) fun fuel => registerFunctionIn_finds fuel [] f

theorem useFunction_finds (f : FunctionId) :
    (Law.finding p around keys).Keeps env (useFunction f) := by
  refine .bind (.read (.pure _)) fun fuel => .useFunctionIn trivial (fun t => ?_)
    (fun f => (registerFunction_finds f).keeps) (fun f => ?_) fuel f
  · exact finding_tabular.keeps fun _ => markType_tables (absurd trivial)
  · exact finding_tabular.keeps fun _ => tables_modifyHere (fun _ => rfl) fun _ => rfl

/-! ### Contexts -/

theorem finding_inside {inner : NodeId} {values : List (String × NodeId)}
    (hn : p.node m = .ok (.context inner values)) (hs : (Law.finding p around keys).inv env s) :
    (Law.finding p (m :: around) keys).inv
      (inside env (s.frames.extend (Frame.current env.frames) m).1 values)
      { s with frames := (s.frames.extend (Frame.current env.frames) m).2 } :=
  ⟨hs.1, Finds.extend.coherent hs.2.1, hs.2.2.extend hn⟩

/-- Where a context value is met, its value is the one that is lent, or its own. -/
theorem finding_lent (key : String) (hs : (Law.finding p around keys).inv env s) :
    (Frame.lookup? key env.frames = none ∧ p.lookup? key around = none) ∨
      ∃ c frames outer, Frame.lookup? key env.frames = some (c, frames) ∧
        p.lookup? key around = some (c, outer) ∧
          (Law.finding p outer keys).inv { env with frames := frames } s := by
  obtain ⟨plan, coherent, framed⟩ := hs
  rcases framed.lookup? key with ⟨hf, hp⟩ | ⟨c, frames, outer, hf, hp, framed'⟩
  · exact .inl ⟨hf, hp⟩
  · exact .inr ⟨c, frames, outer, hf, hp, plan, coherent, framed'⟩

/-! ### Types -/

/-- A step finds the type that the node `c` has under the contexts `around`. -/
def Gives (p : Plan) (around : List NodeId) (keys : List (NodeId × FrameId)) (env : Env)
    (step : Build ValueType) (c : NodeId) : Prop :=
  ∀ s, (Law.finding p around keys).inv env s → Meets step env s (fun _ => True) fun t s' =>
    (Law.finding p around keys).rel [] s s' ∧
      ∀ m, p.resolve c = .ok m → s'.typeIn? ⟨m, around⟩ = some t

theorem Gives.keeps {step : Build ValueType} {c : NodeId} (h : Gives p around keys env step c) :
    (Law.finding p around keys).Keeps env step :=
  fun s hs => (h s hs).imp fun _ _ hr => hr.1

/-- A list of steps returns a value for each. -/
theorem returns_length {β γ : Type} (f : β → Build γ) (xs : List β) :
    Returns (fun ys => ys.length = xs.length) (xs.mapM f) := by
  induction xs with
  | nil =>
    rw [List.mapM_nil]
    exact .pure rfl
  | cons x rest ih =>
    rw [List.mapM_cons]
    refine .bind fun y env s => ?_
    rw [meets_bind]
    refine (ih env s).imp fun ys s' hys => ?_
    exact congrArg Nat.succ hys

/-- The type of a node suits the node. -/
theorem typeOfNode_suits {typeOf : NodeId → Build ValueType}
    (hs : (Law.finding p around keys).inv env s) :
    Meets (typeOfNode typeOf m n) env s (fun _ => True) fun t _ => p.Suits t n := by
  obtain ⟨⟨rfl, -⟩, -⟩ := id hs
  cases n with
  | const type values =>
    unfold typeOfNode
    rw [meets_ofExcept]
    split
    · next typed => exact constantType_eq typed
    · trivial
  | join parts explicit =>
    unfold typeOfNode
    rw [meets_bind]
    refine (meets_true _).imp fun ts s' _ => ?_
    rw [meets_ofExcept]
    split
    · next typed => exact heldStruct?_of_joinType typed
    · trivial
  | convert | assign | loop | jump => rfl
  | call f args =>
    unfold typeOfNode
    rw [meets_bind]
    exact (registerFunction_finds f s hs).imp fun e s' hr => hr.2
  | stack nodes output =>
    cases output with
    | none => rfl
    | some output => exact (meets_true _).imp fun _ _ _ => trivial
  | math method args =>
    unfold typeOfNode
    rw [meets_bind]
    refine (returns_length typeOf args env s).imp fun types s' length => ?_
    rw [meets_ofExcept]
    split
    · next result typed =>
      unfold MathMethod.resultType at typed
      split at typed
      · cases typed
      · next arity => exact length.symm.trans (not_not.1 arity)
    · trivial
  | struct layout values =>
    show Meets (structType layout) env s _ _
    unfold structType
    rw [meets_bind, meets_resolve]
    cases hm : env.plan.resolve layout with
    | error e => trivial
    | ok l =>
      dsimp only
      rw [meets_bind, meets_node]
      cases hl : env.plan.node l with
      | error e => trivial
      | ok n =>
        cases n with
        | structType name members => exact isLayout_of_node hm hl
        | _ => trivial
  | _ => exact (meets_true _).imp fun _ _ _ => trivial

/-- The type of a node is that of the node that it takes its type from. -/
theorem typeOfNode_takes {typeOf : NodeId → Build ValueType} (hn : p.node m = .ok n)
    (h : ∀ around env c, Gives p around keys env (typeOf c) c)
    (hs : (Law.finding p around keys).inv env s) :
    Meets (typeOfNode typeOf m n) env s (fun _ => True) fun t s' =>
      (Law.finding p around keys).rel [] s s' ∧
        ∀ τ, p.Takes ⟨m, around⟩ τ → s'.typeIn? τ = some t := by
  have same : ∀ {n'}, p.node m = .ok n' → n' = n := fun hn' => by
    cases hn.symm.trans hn'
    rfl
  by_cases hl : n.isLexical
  · cases n with
    | context inner values =>
      show Meets (inContext m values (typeOf inner)) env s _ _
      rw [meets_inContext]
      refine (h (m :: around) _ inner _ (finding_inside hn hs)).imp fun t s' hr => ?_
      refine ⟨⟨Finds.extend.trans hr.1.1, hr.1.2⟩, fun τ hτ => ?_⟩
      cases hτ with
      | inside hn' hm =>
        cases same hn'
        exact hr.2 _ hm
      | alike hn' hi =>
        cases same hn'
        cases hi
      | lent hn' | fallback hn' => cases same hn'
    | contextValue key fallback =>
      show Meets (withContextValue key fallback typeOf) env s _ _
      rw [meets_withContextValue]
      have taken : ∀ {t s' c outer}, (p.lookup? key around = some (c, outer) ∨
            p.lookup? key around = none ∧ fallback = some c ∧ outer = around) →
          (∀ m', p.resolve c = .ok m' → BuildState.typeIn? s' ⟨m', outer⟩ = some t) →
            ∀ τ, p.Takes ⟨m, around⟩ τ → s'.typeIn? τ = some t := by
        intro t s' c outer hc found τ hτ
        cases hτ with
        | lent hn' hk hm =>
          cases same hn'
          rcases hc with hc | ⟨hc, -, -⟩
          · cases hc.symm.trans hk
            exact found _ hm
          · cases hc.symm.trans hk
        | fallback hn' hk hm =>
          cases same hn'
          rcases hc with hc | ⟨-, hc, rfl⟩
          · cases hc.symm.trans hk
          · cases hc
            exact found _ hm
        | alike hn' hi =>
          cases same hn'
          cases hi
        | inside hn' => cases same hn'
      rcases finding_lent key hs with ⟨hf, hp⟩ | ⟨c, frames, outer, hf, hp, outside⟩
      · rw [hf]
        cases fallback with
        | none => trivial
        | some c =>
          exact (h around env c s hs).imp fun t s' hr => ⟨hr.1, taken (.inr ⟨hp, rfl, rfl⟩) hr.2⟩
      · rw [hf]
        exact (h outer _ c s outside).imp fun t s' hr => ⟨hr.1, taken (.inl hp) hr.2⟩
    | _ => cases hl
  -- under the same contexts a type may come from one other node
  cases hi : n.inner? with
  | some c =>
    have inner : typeOfNode typeOf m n = typeOf c := by
      cases n <;> cases hi <;> rfl
    rw [inner]
    refine (h around env c s hs).imp fun t s' hr => ⟨hr.1, fun τ hτ => ?_⟩
    cases hτ with
    | alike hn' hi' hm =>
      cases same hn'
      cases hi.symm.trans hi'
      exact hr.2 _ hm
    | inside hn' | lent hn' | fallback hn' =>
      cases same hn'
      cases hl rfl
  | none =>
    refine (Keeps.typeOfNode (fun f => (registerFunction_finds f).keeps) ?_ ?_ (fun c _ =>
      (h around env c).keeps) s hs).imp fun t s' hr => ⟨hr, fun τ hτ => ?_⟩
    · rintro inner values rfl
      exact hl rfl
    · rintro key fallback rfl
      exact hl rfl
    · cases hτ with
      | alike hn' hi' =>
        cases same hn'
        cases hi.symm.trans hi'
      | inside hn' | lent hn' | fallback hn' =>
        cases same hn'
        exact absurd rfl hl

/-- What has a type as a member is a struct whose layout has the member. -/
theorem memberType_has (t : ValueType) (name : String) :
    Meets (memberType t name) env s (fun _ => True) fun _ s' =>
      s' = s ∧ ∃ struct, t = .struct struct ∧ env.plan.HasMember struct name := by
  unfold memberType
  cases t with
  | struct struct =>
    dsimp only
    rw [meets_bind, meets_structMembers]
    cases layout : env.plan.structs.get? struct with
    | none => trivial
    | some members =>
      dsimp only
      cases has : members.find? fun m => m.name = name with
      | none => trivial
      | some member =>
        have named : member.name = name := by simpa using List.find?_some has
        exact ⟨rfl, struct, rfl, members, layout, member, List.mem_of_find?_eq_some has, named⟩
  | _ => trivial

/-- Where a member is typed, the struct that it is taken from has it. -/
theorem typeOfNode_member {typeOf : NodeId → Build ValueType} {base : NodeId} {name : String}
    (h : ∀ around env c, Gives p around keys env (typeOf c) c)
    (hs : (Law.finding p around keys).inv env s) :
    Meets (typeOfNode typeOf m (.member base name)) env s (fun _ => True) fun _ s' =>
      ∀ b, p.resolve base = .ok b → ∃ struct, s'.typeIn? ⟨b, around⟩ = some (.struct struct) ∧
        p.HasMember struct name := by
  obtain ⟨⟨rfl, -⟩, -⟩ := id hs
  unfold typeOfNode
  rw [meets_bind]
  refine (h around env base s hs).imp fun t s₁ hr => ?_
  refine (memberType_has t name).imp ?_
  rintro _ _ ⟨rfl, struct, rfl, has⟩ b hb
  exact ⟨struct, hr.2 b hb, has⟩

/-- The type of a node fits the types of the nodes that it refers to. -/
theorem typeOfNode_finds {typeOf : NodeId → Build ValueType} (hn : p.node m = .ok n)
    (h : ∀ around env c, Gives p around keys env (typeOf c) c)
    (hs : (Law.finding p around keys).inv env s) :
    Meets (typeOfNode typeOf m n) env s (fun _ => True) fun t s' =>
      (Law.finding p around keys).rel [] s s' ∧ s'.Fits p ⟨m, around⟩ t := by
  have member : Meets (typeOfNode typeOf m n) env s (fun _ => True) fun _ s' =>
      ∀ base name b, n = .member base name → p.resolve base = .ok b →
        ∃ struct, s'.typeIn? ⟨b, around⟩ = some (.struct struct) ∧ p.HasMember struct name := by
    cases n with
    | member base name =>
      refine (typeOfNode_member h hs).imp fun t s' found => ?_
      rintro _ _ b ⟨⟩ hb
      exact found b hb
    | _ => exact (meets_true _).imp fun _ _ _ _ _ _ hn => nomatch hn
  refine (((typeOfNode_takes hn h hs).and (typeOfNode_suits hs)).and member).imp ?_
  rintro t s' ⟨⟨⟨hr, taken⟩, suits⟩, member⟩
  refine ⟨hr, fun hτ => taken _ hτ, fun hn' => ?_, fun hn' hb => ?_⟩
  · cases hn.symm.trans hn'
    exact suits
  · cases hn.symm.trans hn'
    exact member _ _ _ rfl hb

/-- The type of a node is found and kept. -/
theorem typeOfIn_finds (fuel : Nat) (around : List NodeId) (keys : List (NodeId × FrameId))
    (env : Env) (id : NodeId) : Gives p around keys env (typeOfIn fuel id) id := by
  induction fuel generalizing around keys env id with
  | zero => exact fun _ _ => trivial
  | succ fuel ih =>
    rintro s ⟨⟨rfl, rfl⟩, coherent, framed⟩
    have found : ∀ {s' : BuildState} {m t}, env.plan.resolve id = .ok m →
        s'.typeIn? ⟨m, around⟩ = some t →
          ∀ m', env.plan.resolve id = .ok m' → s'.typeIn? ⟨m', around⟩ = some t := by
      rintro s' m t hm ht m' hm'
      cases hm.symm.trans hm'
      exact ht
    refine meets_typeOfIn (fun _ => trivial) (fun m t hm ht => ?_) fun m n hm hn ht apart => ?_
    · refine ⟨Law.refl _ s, found hm ?_⟩
      rw [typeIn?_of_get? framed.number?]
      exact ht
    · have deeper : (Law.finding env.plan around ((m, Frame.current env.frames) :: env.typing)).inv
          { env with typing := (m, Frame.current env.frames) :: env.typing } s :=
        ⟨⟨rfl, rfl⟩, coherent, framed⟩
      refine (typeOfNode_finds hn (fun around env c => ih around _ env c) deeper).imp fun t s' hr => ?_
      -- the node was not typed on the way, since it was being typed
      have new := hr.1.2 _ (.head _) ht
      have number := (framed.mono hr.1.1.frames).number?
      have put := Finds.put number new hr.2
      refine ⟨⟨hr.1.1.trans put, fun k hk hnone => ?_⟩, found hm ?_⟩
      · show (s'.types.put _ t).get? k = none
        rw [OrderedMap.get?_put, if_neg, hr.1.2 k (.tail _ hk) hnone]
        rintro rfl
        exact apart hk
      · rw [typeIn?_of_get? (s := { s' with types := _ }) number]
        show (s'.types.put _ t).get? _ = some t
        rw [OrderedMap.get?_put, if_pos rfl]

/-- The type of a node under the contexts around it. -/
theorem typeOf_finds (id : NodeId) : Gives p around keys env (typeOf id) id := by
  intro s hs
  unfold typeOf depthBound
  rw [meets_bind, meets_bind, meets_read, meets_pure]
  exact typeOfIn_finds _ around keys env id s hs

/-! ### Varyings -/

variable {source : NodeId} {name : Option String} {interpolation : Interpolation}
  {sampling : Option Sampling} {v : VaryingEntry}

/-- A varying that is not known is entered with the type that its source has here. -/
theorem enterVarying_finds (hs : (Law.finding p around keys).inv env s)
    (hnew : s.varyings.get? id = none) :
    Meets (enterVarying id source name interpolation sampling) env s (fun _ => True) fun v s' =>
      (Law.finding p around keys).rel [] s s' ∧ s'.varyings.get? id = some v := by
  refine meets_enterVarying
    (((typeOf_finds source s hs).and (typeOf_still source s trivial)).imp ?_)
  rintro type s₁ ⟨⟨found, typed⟩, still⟩
  have claim : (Law.tables True).Keeps env (claimVarying name) := claimVarying_tables name
  refine (claim s₁ trivial).mono (fun _ _ => trivial) fun emitted s₂ core => ?_
  have claimed : s₁.Finds p s₂ := .of_core core
  have none : s₂.varyings.get? id = none := by
    rw [core_varyings core, show s₁.varyings = s.varyings from congrArg Still.varyings still]
    exact hnew
  refine ⟨⟨found.1.trans (claimed.trans (.putVarying (fun v' hv' => ?_) fun _ m hm => ?_)),
    fun k hk hnone => ?_⟩, ?_⟩
  · cases none.symm.trans hv'
  · exact ⟨around, claimed.typeIn? (typed m hm)⟩
  · exact (congrArg (fun c => c.types.get? k) core).trans (found.2 k hk hnone)
  · exact (OrderedMap.get?_put _ _ _ _).trans (if_pos rfl)

theorem registerVarying_finds (hs : (Law.finding p around keys).inv env s) :
    Meets (registerVarying id source name interpolation sampling) env s (fun _ => True) fun v s' =>
      (Law.finding p around keys).rel [] s s' ∧ s'.varyings.get? id = some v := by
  unfold registerVarying
  rw [meets_bind, meets_get]
  cases found : s.varyings.get? id with
  | some v => exact ⟨Law.refl _ s, found⟩
  | none => exact enterVarying_finds hs found

/-- A varying of the table gets its location. -/
theorem locateVarying_finds {location : Option Nat}
    (hv : s.varyings.get? id = some { v with location := location }) :
    Meets (locateVarying id v) env s (fun _ => True) fun _ s' => s.Finds p s' := by
  unfold locateVarying
  rw [meets_modify]
  split
  · exact .refl s
  have put : s.Finds p { s with
      varyings := s.varyings.put id { v with location := some s.nextVarying } } :=
    .putVarying (fun v' hv' => by cases hv.symm.trans hv'; exact ⟨_, rfl⟩)
      fun coherent m hm => coherent.varyings id _ hv m hm
  exact put.trans (.of_eq rfl rfl rfl rfl)

/-! ### Analysis -/

theorem finding_within (e : Stage) (hs : (Law.finding p around keys).inv env s) :
    (Law.finding p around keys).inv (within env e) s := by
  unfold within
  split
  · exact hs
  · exact hs

/-- Below a node analysis keeps to the types that were found. -/
theorem analyzeNode_finds {analyze : NodeId → Build Unit} (hn : p.node id = .ok n)
    (h : ∀ around env c, (Law.finding p around keys).Keeps env (analyze c)) :
    (Law.finding p around keys).Keeps env (analyzeNode analyze id n) := by
  by_cases hshift : n.shifts
  · cases n with
    | varying source name interpolation sampling =>
      refine .bind (.discard fun s hs => (registerVarying_finds hs).imp fun _ _ hr => hr.1) fun _ => ?_
      exact .inStage (h around _ source) (fun _ => finding_within .vertex) (fun _ _ hr => hr)
        fun _ he => he
    | cache inner shares =>
      refine .bind (.read fun s _ => ⟨.of_eq rfl rfl rfl rfl, fun _ _ hk => hk⟩) fun scope => ?_
      exact fun s hs => h around { env with scope := scope } inner s hs
    | context inner values =>
      intro s hs
      show Meets (inContext id values (analyze inner)) env s _ _
      rw [meets_inContext]
      refine (h (id :: around) _ inner _ (finding_inside hn hs)).imp fun _ s' hr => ?_
      exact ⟨Finds.extend.trans hr.1, hr.2⟩
    | contextValue key fallback =>
      intro s hs
      show Meets (withContextValue key fallback analyze) env s _ _
      rw [meets_withContextValue]
      rcases finding_lent key hs with ⟨hf, -⟩ | ⟨c, frames, outer, hf, -, outside⟩
      · rw [hf]
        cases fallback with
        | none => trivial
        | some c => exact h around env c s hs
      · rw [hf]
        exact h outer _ c s outside
    | _ => cases hshift
  · refine Secures.keeps (Q := fun s => ∀ c ∈ n.children, True) ?_
    refine .analyzeNode finding_tabular (fun f _ _ => (registerFunction_finds f).keeps)
      (fun _ _ _ _ h => h) (by simpa using hshift) fun c _ s hs => ?_
    exact (h around env c s hs).imp fun _ _ hr => ⟨hr, trivial⟩

theorem analyzeIn_finds (fuel : Nat) (around : List NodeId) (env : Env) (id : NodeId) :
    (Law.finding p around keys).Keeps env (analyzeIn fuel id) := by
  induction fuel generalizing around env id with
  | zero => exact fun _ _ => trivial
  | succ fuel ih =>
    rintro s hs
    obtain ⟨rfl, -⟩ := hs.1
    have counted : ∀ m, (Law.finding env.plan around keys).rel [] s (s.counting env m) :=
      fun m => ⟨.of_eq rfl rfl rfl rfl, fun _ _ hk => hk⟩
    refine meets_analyzeIn (L := Law.finding env.plan around keys) (fun _ _ _ => trivial)
      (fun m _ _ _ => counted m) fun m n _ _ _ hn => ?_
    have walk : (Law.finding env.plan around keys).Keeps { env with path := m :: env.path }
        (analyzeNode (analyzeIn fuel) m n) := analyzeNode_finds hn ih
    exact (walk _ (Law.mono _ hs (counted m))).imp fun _ _ hr => Law.trans _ (counted m) hr

/-- The types that analysis finds fit together. -/
theorem analyze_coherent {active : List Stage} {rs : List (Stage × NodeId)}
    (h : atRoots p active analyze rs (BuildState.start p) = .ok s) : s.Coherent p := by
  have start : (BuildState.start p).Coherent p :=
    ⟨FrameTable.regular_empty, by rintro _ _ _ ⟨⟩, by rintro _ _ ⟨⟩, by rintro _ _ ⟨⟩⟩
  have inv : ∀ r ∈ rs, (Law.finding p [] []).inv (Env.root p active r.1) (BuildState.start p) :=
    fun _ _ => ⟨⟨rfl, rfl⟩, start, trivial⟩
  have walk : ∀ r ∈ rs, (Law.finding p [] []).Keeps (Env.root p active r.1) (analyze r.2) :=
    fun r _ => .read (analyzeIn_finds _ [] _ r.2)
  have all := Law.Keeps.atRoots inv walk
  rw [h] at all
  exact all.1.coherent start

end Build

end ShaderGraph
