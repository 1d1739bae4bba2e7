import ShaderGraph.Proofs.Survey
import ShaderGraph.Proofs.Typing
import ShaderGraph.Proofs.Unfolding

/-!
# Types under contexts

A build keeps the type of a node for the number of the contexts around it. In a graph of values
these are the types that the nodes have under those contexts (`typeOf_lexical`), and the type of a
varying is the one that its source has where evaluation meets the varying (`analyze_lexical`).
-/

namespace ShaderGraph

/-- Whether a node is a value: no variable, no assignment, no loop and no call. -/
def NodeOf.isValue {ρ μ : Type} : NodeOf ρ μ → Bool
  | var .. | assign .. | loop .. | call .. => false
  | _ => true

/-- The nodes are values. -/
def Plan.OfValues (p : Plan) : Prop := ∀ id n, p.node id = .ok n → n.isValue = true

/-- A varying was entered where evaluation met its node. -/
structure Plan.Carries (p : Plan) (roots : List NodeId) (active : List Stage) (id : NodeId)
    (v : VaryingEntry) : Prop where
  node : ∃ name interpolation sampling, p.node id = .ok (.varying v.source name interpolation sampling)
  vertex : .vertex ∈ active
  met : ∃ around, p.Reaches roots ⟨id, around⟩ ∧ p.typeIn around v.source = some v.type

/-- The types that were found are those of nodes under contexts. -/
structure BuildState.Lexical (p : Plan) (roots : List NodeId) (active : List Stage)
    (s : BuildState) : Prop where
  frames : s.frames.Regular
  types : ∀ {id frame type}, s.types.get? (id, frame) = some type →
    ∃ around, s.frames.number? around = some frame ∧ p.typeIn around id = some type
  varyings : ∀ {id v}, s.varyings.get? id = some v → p.Carries roots active id v

/-- A type that was found is the one of the node under the contexts around it. -/
theorem BuildState.Lexical.type {p : Plan} {roots : List NodeId} {active : List Stage}
    {around : List NodeId} {m : NodeId} {s : BuildState} (hs : s.Lexical p roots active)
    {frames : List Frame} (hf : Framed p s.frames frames around) {type : ValueType}
    (ht : s.types.get? (m, Frame.current frames) = some type) : p.typeIn around m = some type := by
  obtain ⟨around', hnum, htype⟩ := hs.types ht
  exact hs.frames.number?_inj hnum hf.number? ▸ htype

/-- Between two states contexts may get numbers, and what types and varyings are found are those of
nodes under contexts. -/
structure BuildState.Widens (p : Plan) (roots : List NodeId) (active : List Stage)
    (s s' : BuildState) : Prop where
  frames : s.frames.Extends s'.frames
  lexical : s.Lexical p roots active → s'.Lexical p roots active

namespace BuildState.Widens

variable {p : Plan} {roots : List NodeId} {active : List Stage} {m : NodeId}
  {s s' s'' : BuildState}

theorem refl (s : BuildState) : s.Widens p roots active s := ⟨.refl _, id⟩

theorem trans (h : s.Widens p roots active s') (h' : s'.Widens p roots active s'') :
    s.Widens p roots active s'' :=
  ⟨h.frames.trans h'.frames, fun hs => h'.lexical (h.lexical hs)⟩

/-- A change that contexts, types and varyings do not see. -/
theorem of_eq (hf : s'.frames = s.frames) (ht : s'.types = s.types) (hv : s'.varyings = s.varyings) :
    s.Widens p roots active s' := by
  refine ⟨hf ▸ .refl _, fun h => ⟨hf ▸ h.frames, fun hg => ?_, fun hg => h.varyings (hv ▸ hg)⟩⟩
  rw [hf]
  exact h.types (ht ▸ hg)

theorem of_core (h : s'.core = s.core) : s.Widens p roots active s' :=
  of_eq (core_frames h) (congrArg Core.types h) (core_varyings h)

/-- A sequence of contexts gets a number. -/
theorem extend {parent : FrameId} :
    s.Widens p roots active { s with frames := (s.frames.extend parent m).2 } := by
  refine ⟨FrameTable.extends_extend, fun hs => ⟨hs.frames.extend, fun ht => ?_, hs.varyings⟩⟩
  obtain ⟨around', hnum, htype⟩ := hs.types ht
  exact ⟨around', FrameTable.number?_of_extends FrameTable.extends_extend hnum, htype⟩

end BuildState.Widens

/-- What keeps to the types of nodes under the context nodes `around`. -/
def Law.lexical (p : Plan) (roots : List NodeId) (active : List Stage) (around : List NodeId) :
    Law where
  inv env s := env.plan = p ∧ env.active = active ∧ s.Lexical p roots active ∧
    Framed p s.frames env.frames around
  rel _ := BuildState.Widens p roots active
  ends _ := True
  refl := .refl
  trans := .trans
  mono hi hr := ⟨hi.1, hi.2.1, hr.lexical hi.2.2.1, hi.2.2.2.mono hr.frames⟩
  loops _ hi := hi
  ordinary _ := trivial
  located _ := trivial

namespace Build

open Law Plan

variable {p : Plan} {roots : List NodeId} {active : List Stage} {around : List NodeId} {env : Env}
  {id m : NodeId} {n : Node}

theorem lexical_tabular : (Law.lexical p roots active around).Tabular True where
  exhausted _ := trivial
  founded _ := absurd trivial
  rel _ := .of_core

/-! ### Contexts -/

theorem lexical_inside {s : BuildState} {inner : NodeId} {values : List (String × NodeId)}
    (hn : p.node m = .ok (.context inner values))
    (hs : (Law.lexical p roots active around).inv env s) :
    (Law.lexical p roots active (m :: around)).inv
      (inside env (s.frames.extend (Frame.current env.frames) m).1 values)
      { s with frames := (s.frames.extend (Frame.current env.frames) m).2 } := by
  exact ⟨hs.1, hs.2.1, BuildState.Widens.extend.lexical hs.2.2.1, hs.2.2.2.extend hn⟩

/-- What a context node refers to is evaluated inside it. -/
theorem inContext_lexical {α : Type} {step : Build α} {inner : NodeId}
    {values : List (String × NodeId)} {P : α → Prop} (hn : p.node m = .ok (.context inner values))
    (h : ∀ frame, (Law.lexical p roots active (m :: around)).Yields (inside env frame values) step
      P) : (Law.lexical p roots active around).Yields env (inContext m values step) P := by
  intro s hs
  rw [meets_inContext]
  refine (h _ _ (lexical_inside hn hs)).imp fun a s' hr => ?_
  exact ⟨BuildState.Widens.extend.trans hr.1, hr.2⟩

/-- Where a context value is met, its value is the one that is lent, or its own. -/
theorem lexical_lent {s : BuildState} (key : String)
    (hs : (Law.lexical p roots active around).inv env s) :
    (Frame.lookup? key env.frames = none ∧ p.lookup? key around = none) ∨
      ∃ c frames outer, Frame.lookup? key env.frames = some (c, frames) ∧
        p.lookup? key around = some (c, outer) ∧
          (Law.lexical p roots active outer).inv { env with frames := frames } s := by
  obtain ⟨plan, asked, typed, framed⟩ := hs
  rcases framed.lookup? key with ⟨hf, hp⟩ | ⟨c, frames, outer, hf, hp, framed'⟩
  · exact .inl ⟨hf, hp⟩
  · exact .inr ⟨c, frames, outer, hf, hp, plan, asked, typed, framed'⟩

/-- A context value goes on at the value that is lent, or at its own. -/
theorem withContextValue_lexical {α : Type} {step : NodeId → Build α} {key : String}
    {fallback : Option NodeId} {P : α → Prop}
    (h : ∀ c outer frames, (p.lookup? key around = some (c, outer) ∨
        p.lookup? key around = none ∧ fallback = some c ∧ outer = around) →
      (Law.lexical p roots active outer).Yields { env with frames := frames } (step c) P) :
    (Law.lexical p roots active around).Yields env (withContextValue key fallback step) P := by
  intro s hs
  rw [meets_withContextValue]
  rcases lexical_lent key hs with ⟨hf, hp⟩ | ⟨c, frames, outer, hf, hp, inner⟩
  · rw [hf]
    cases fallback with
    | none => trivial
    | some c => exact h c around env.frames (.inr ⟨hp, rfl, rfl⟩) s hs
  · rw [hf]
    exact h c outer frames (.inl hp) s inner

/-! ### Types -/

theorem structMembers_lexical {name : String} {next : List Member → Build ValueType}
    {P : ValueType → Prop} (h : ∀ members, p.structs.get? name = some members →
      (Law.lexical p roots active around).Yields env (next members) P) :
    (Law.lexical p roots active around).Yields env (Build.structMembers name >>= next) P := by
  rintro s ⟨rfl, hs⟩
  unfold Build.structMembers
  rw [meets_bind, meets_bind, meets_read]
  cases hr : env.plan.structs.get? name with
  | some members => exact h members hr s ⟨rfl, hs⟩
  | none => trivial

theorem memberType_lexical (base : ValueType) (name : String) :
    (Law.lexical p roots active around).Yields env (memberType base name) fun t =>
      p.memberType? name base = some t := by
  unfold memberType
  split
  · next x =>
    refine structMembers_lexical fun members hm => ?_
    split
    · next found =>
      refine .pure ?_
      simp [memberType?, hm, found]
    · exact .fail rfl
  · exact .fail rfl

theorem elementType_lexical (base index : ValueType) :
    (Law.lexical p roots active around).Yields env (elementType base index) fun t =>
      base.element? = some t := by
  unfold elementType
  refine .check rfl fun _ => ?_
  split
  · next found => exact .pure found
  · exact .fail rfl

theorem structType_lexical (layout : NodeId) :
    (Law.lexical p roots active around).Yields env (structType layout) fun t =>
      p.layoutType? layout = some t := by
  rintro s ⟨rfl, -⟩
  unfold structType
  rw [meets_bind, meets_resolve]
  cases hm : env.plan.resolve layout with
  | error e => trivial
  | ok m =>
    dsimp only
    rw [meets_bind, meets_node]
    cases hn : env.plan.node m with
    | error e => trivial
    | ok n =>
      dsimp only
      split
      · next name _ =>
        refine ⟨Law.refl _ s, ?_⟩
        rw [layoutType?, built?_eq hm hn]
        rfl
      · trivial

/-- The type of a conditional is that of its branches. -/
theorem conditionalType_lexical {typeOf : NodeId → Build ValueType} {condition thenNode : NodeId}
    {elseNode : Option NodeId}
    (h : ∀ c, (Law.lexical p roots active around).Yields env (typeOf c) fun t =>
      p.typeIn around c = some t) :
    (Law.lexical p roots active around).Yields env
      (conditionalType typeOf condition thenNode elseNode) fun t =>
        match elseNode with
        | some _ => p.typeIn around thenNode = some t
        | none => t = .void := by
  unfold conditionalType
  refine .bind (h condition) fun c _ => .check rfl fun _ => ?_
  cases elseNode with
  | none => exact .pure rfl
  | some elseNode =>
    refine .bind (h thenNode) fun t ht => .bind (h elseNode) fun e _ => ?_
    exact .check rfl fun _ => .pure ht

theorem attributeType_lexical (name : String) (explicit : Option ValueType) :
    (Law.lexical p roots active around).Yields env (attributeType name explicit) fun t =>
      explicit.or (p.options.attributes.get? name) = some t := by
  rintro s ⟨rfl, -⟩
  unfold attributeType
  rw [meets_bind, meets_read]
  split
  · next found => exact ⟨Law.refl _ s, found⟩
  · trivial

/-- There are no loops among values. -/
theorem counterType_lexical (hp : p.OfValues) {loop : NodeId} {param : Nat}
    {P : ValueType → Prop} :
    (Law.lexical p roots active around).Yields env (counterType loop param) P := by
  rintro s ⟨rfl, -⟩
  unfold counterType
  rw [meets_bind, meets_resolve]
  cases env.plan.resolve loop with
  | error e => trivial
  | ok m =>
    dsimp only
    rw [meets_bind, meets_node]
    cases hn : env.plan.node m with
    | error e => trivial
    | ok n =>
      cases n with
      | loop params body => cases hp m _ hn
      | _ => trivial

/-- The type of a value comes from the types of the nodes that it refers to. -/
theorem typeOfNode_lexical {typeOf : NodeId → Build ValueType} (hp : p.OfValues) (hm : p.resolve m = .ok m)
    (hn : p.node m = .ok n) (h : ∀ around env c,
      (Law.lexical p roots active around).Yields env (typeOf c) fun t =>
        p.typeIn around c = some t) :
    (Law.lexical p roots active around).Yields env (typeOfNode typeOf m n) fun t =>
      p.typeIn around m = some t := by
  have here : ∀ c, (Law.lexical p roots active around).Yields env (typeOf c) fun t =>
      p.typeIn around c = some t := fun c => h around env c
  have hv := hp m n hn
  by_cases hl : n.isLexical
  · cases n with
    | context inner values =>
      rw [typeIn_context hm hn]
      exact inContext_lexical hn fun frame => h _ _ inner
    | contextValue key fallback =>
      refine withContextValue_lexical fun c outer frames hl => ?_
      rw [typeIn_contextValue hm hn hl]
      exact h outer _ c
    | _ => cases hl
  rw [typeIn_eq, typeStep, built?_eq hm hn, Option.bind_eq_bind, Option.bind_some]
  cases n with
  | const type values =>
    exact .ofExcept (fun _ _ => rfl) fun t ht => by simp [ht, Except.toOption]
  | meshAttribute name type => exact attributeType_lexical name type
  | varying source => exact here source
  | cache inner => exact here inner
  | operator op left right =>
    refine .bind (here left) fun l hl => .bind (here right) fun r hr => ?_
    exact .ofExcept (fun _ _ => rfl) fun t ht => by simp [hl, hr, ht, Except.toOption]
  | unary op operand =>
    refine .bind (here operand) fun t ht => ?_
    exact .ofExcept (fun _ _ => rfl) fun t' ht' => by simp [ht, ht', Except.toOption]
  | math method args =>
    refine .bind (.mapM fun c _ => here c) fun ts hts => ?_
    exact .ofExcept (fun _ _ => rfl) fun t ht => by simp [hts, ht, Except.toOption]
  | split source components =>
    refine .bind (here source) fun t ht => ?_
    exact .ofExcept (fun _ _ => rfl) fun t' ht' => by simp [ht, ht', Except.toOption]
  | join parts explicit =>
    refine .bind (.mapM fun c _ => here c) fun ts hts => ?_
    exact .ofExcept (fun _ _ => rfl) fun t ht => by simp [hts, ht, Except.toOption]
  | conditional condition thenNode elseNode =>
    refine (conditionalType_lexical here).imp fun t ht => ?_
    cases elseNode with
    | some elseNode => exact ht
    | none => exact congrArg some ht.symm
  | stack nodes output =>
    cases output with
    | some output => exact here output
    | none => exact .pure rfl
  | struct layout values => exact structType_lexical layout
  | array element values =>
    exact .ofExcept (fun _ _ => rfl) fun t ht => by simp [ht, Except.toOption]
  | member base name =>
    refine .bind (here base) fun t ht => (memberType_lexical t name).imp fun t' ht' => ?_
    simp [ht, ht']
  | index base i =>
    refine .bind (here base) fun t ht => .bind (here i) fun t' _ => ?_
    exact (elementType_lexical t t').imp fun t'' ht' => by simp [ht, ht']
  | context | contextValue => exact absurd rfl hl
  | loopIndex loop param => exact counterType_lexical hp
  | uniform | property | builtin | texture | storageBuffer | convert | jump | structType =>
    exact .pure rfl
  | remap | custom => exact .fail rfl
  | var | assign | loop | call => cases hv

/-- The type of a node is kept. -/
theorem keepType_lexical {type : ValueType} (ht : p.typeIn around m = some type) :
    (Law.lexical p roots active around).Keeps env (modify fun s =>
      { s with types := s.types.put (m, Frame.current env.frames) type }) := by
  rintro s ⟨-, -, -, framed⟩
  refine ⟨.refl _, fun hs => ⟨hs.frames, fun {id frame type'} hg => ?_, hs.varyings⟩⟩
  simp only [OrderedMap.get?_put] at hg
  split at hg
  · next he =>
    cases hg
    cases he
    exact ⟨around, framed.number?, ht⟩
  · exact hs.types hg

/-- Finding the type of a node under contexts. -/
theorem typeOfIn_lexical (hp : p.OfValues) (fuel : Nat) (around : List NodeId) (env : Env)
    (id : NodeId) : (Law.lexical p roots active around).Yields env (typeOfIn fuel id) fun t =>
      p.typeIn around id = some t := by
  induction fuel generalizing around env id with
  | zero => exact fun _ _ => trivial
  | succ fuel ih =>
    rintro s ⟨rfl, hs⟩
    refine meets_typeOfIn (fun _ => trivial) (fun m t hm ht => ?_) fun m n hm hn _ _ => ?_
    · rw [typeIn_resolve hm]
      exact ⟨Law.refl _ s, hs.2.1.type hs.2.2 ht⟩
    · rw [typeIn_resolve hm]
      have below : (Law.lexical env.plan roots active around).Yields
          { env with typing := (m, Frame.current env.frames) :: env.typing }
          (typeOfNode (typeOfIn fuel) m n) fun t => env.plan.typeIn around m = some t :=
        typeOfNode_lexical hp (resolve_of_resolve hm) hn ih
      refine (below s ⟨rfl, hs⟩).imp fun t s' hr => ?_
      have kept := keepType_lexical hr.2 s' (Law.mono _ ⟨rfl, hs⟩ hr.1)
      exact ⟨hr.1.trans kept, hr.2⟩

theorem typeOf_lexical (hp : p.OfValues) (id : NodeId) :
    (Law.lexical p roots active around).Yields env (typeOf id) fun t =>
      p.typeIn around id = some t := by
  unfold typeOf depthBound
  exact .after (.read (.pure _)) fun fuel => typeOfIn_lexical hp fuel around env id

/-! ### Varyings -/

/-- A varying is entered with the type that its source has here. -/
theorem enterVarying_lexical (hp : p.OfValues) {source : NodeId} {name : Option String}
    {interpolation : Interpolation} {sampling : Option Sampling}
    (hn : p.node id = .ok (.varying source name interpolation sampling))
    (hr : p.Reaches roots ⟨id, around⟩) :
    (Law.lexical p roots active around).Keeps env
      (enterVarying id source name interpolation sampling) := by
  refine .bind .stage fun t => .when (fun _ => .fail rfl) fun _ => ?_
  rintro s ⟨plan, rfl, hs⟩
  rw [meets_bind, meets_read, meets_ite]
  refine ⟨fun _ => trivial, fun hv => ?_⟩
  have rest : (Law.lexical p roots env.active around).Keeps env (do
      let type ← typeOf source
      if !type.isInterface then fail (TypeError.varyingForm type)
      let emitted ← claimVarying name
      let v : VaryingEntry :=
        ⟨emitted, type, source, interpolationFor type interpolation, sampling, none⟩
      modify fun s => { s with varyings := s.varyings.put id v }
      return v) := by
    refine .using (typeOf_lexical hp source) fun type ht => .when (fun _ => .fail rfl) fun _ => ?_
    refine .bind (lexical_tabular.keeps fun _ => claimVarying_tables name) fun emitted => ?_
    refine .bind (fun s _ => ⟨.refl _, fun hs => ⟨hs.frames, hs.types, fun {id' v'} hg => ?_⟩⟩)
      fun _ => .pure _
    simp only [OrderedMap.get?_put] at hg
    split at hg
    · next he =>
      cases hg
      exact he ▸ ⟨⟨_, _, _, hn⟩, by simpa using hv, around, hr, ht⟩
    · exact hs.varyings hg
  exact rest s ⟨plan, rfl, hs⟩

theorem registerVarying_lexical (hp : p.OfValues) {source : NodeId} {name : Option String}
    {interpolation : Interpolation} {sampling : Option Sampling}
    (hn : p.node id = .ok (.varying source name interpolation sampling))
    (hr : p.Reaches roots ⟨id, around⟩) :
    (Law.lexical p roots active around).Keeps env
      (registerVarying id source name interpolation sampling) := by
  refine .get fun s => ?_
  split
  · exact .pure _
  · exact enterVarying_lexical hp hn hr

/-! ### Analysis -/

theorem lexical_within {s : BuildState} (t : Stage)
    (hs : (Law.lexical p roots active around).inv env s) :
    (Law.lexical p roots active around).inv (within env t) s := by
  unfold within
  split
  · exact hs
  · exact hs

/-- Below a node analysis keeps to the types of nodes. -/
theorem analyzeNode_lexical {analyze : NodeId → Build Unit} (hp : p.OfValues)
    (hn : p.node id = .ok n) (hr : p.Reaches roots ⟨id, around⟩)
    (h : ∀ env' c outer, (∀ m, p.resolve c = .ok m → p.Step ⟨id, around⟩ ⟨m, outer⟩) →
      (Law.lexical p roots active outer).Keeps env' (analyze c)) :
    (Law.lexical p roots active around).Keeps env (analyzeNode analyze id n) := by
  have below : n.isLexical = false → ∀ c ∈ n.children, ∀ env',
      (Law.lexical p roots active around).Keeps env' (analyze c) :=
    fun hl c hc env' => h env' c around fun m hm => .child hn hl hc hm
  by_cases hshift : n.shifts
  · cases n with
    | varying source name interpolation sampling =>
      refine .bind (.discard (registerVarying_lexical hp hn hr)) fun _ => ?_
      exact .inStage (below rfl source (.head _) _) (fun _ => lexical_within .vertex)
        (fun _ _ h => h) fun _ h => h
    | cache inner shares =>
      refine .bind (.read fun s _ => BuildState.Widens.of_eq rfl rfl rfl) fun scope => ?_
      exact fun s hs => below rfl inner (.head _) { env with scope := scope } s hs
    | context inner values =>
      refine Yields.keeps (P := fun _ => True) (inContext_lexical hn fun frame => ?_)
      exact .ofKeeps (h _ inner (id :: around) fun m hm => .inside hn hm) fun _ => trivial
    | contextValue key fallback =>
      refine Yields.keeps (P := fun _ => True) (withContextValue_lexical fun c outer frames hl => ?_)
      refine .ofKeeps (h _ c outer fun m hm => ?_) fun _ => trivial
      rcases hl with hl | ⟨hl, rfl, rfl⟩
      · exact .lent hn hl hm
      · exact .fallback hn hl hm
    | _ => cases hshift
  · have hl : n.isLexical = false := by
      cases n <;> first | rfl | exact absurd rfl hshift
    refine Secures.keeps (Q := fun s => ∀ c ∈ n.children, True) ?_
    refine .analyzeNode lexical_tabular ?_ (fun _ _ _ _ h => h) (by simpa using hshift) ?_
    · rintro f args rfl
      cases hp id _ hn
    · exact fun c hc s hs => (below hl c hc env s hs).imp fun _ _ hr => ⟨hr, trivial⟩

theorem analyzeIn_lexical (hp : p.OfValues) (fuel : Nat)
    (hr : ∀ m, p.resolve id = .ok m → p.Reaches roots ⟨m, around⟩) :
    (Law.lexical p roots active around).Keeps env (analyzeIn fuel id) := by
  induction fuel generalizing around env id with
  | zero => exact fun _ _ => trivial
  | succ fuel ih =>
    rintro s hs
    obtain rfl := hs.1
    have counted : ∀ m, (Law.lexical env.plan roots active around).rel [] s (s.counting env m) :=
      fun m => BuildState.Widens.of_eq rfl rfl rfl
    refine meets_analyzeIn (L := Law.lexical env.plan roots active around) (fun _ _ _ => trivial)
      (fun m _ _ _ => counted m) fun m n hm _ _ hn => ?_
    have inv := Law.mono _ hs (counted m)
    have walk : (Law.lexical env.plan roots active around).Keeps { env with path := m :: env.path }
        (analyzeNode (analyzeIn fuel) m n) :=
      analyzeNode_lexical hp hn (hr m hm) fun env' c outer hs =>
        ih fun m' hm' => (hr m hm).step (hs m' hm')
    exact (walk _ inv).imp fun _ _ h => Law.trans _ (counted m) h

/-- What analysis leaves behind. -/
theorem analyze_lexical (hp : p.OfValues) {rs : List (Stage × NodeId)} {s : BuildState}
    (h : atRoots p active analyze rs (BuildState.start p) = .ok s) :
    s.Lexical p (rs.map Prod.snd) active := by
  have start : (BuildState.start p).Lexical p (rs.map Prod.snd) active :=
    ⟨FrameTable.regular_empty, fun hg => (nomatch hg), fun hg => nomatch hg⟩
  have inv : ∀ r ∈ rs, (Law.lexical p (rs.map Prod.snd) active []).inv (Env.root p active r.1)
      (BuildState.start p) := fun _ _ => ⟨rfl, rfl, start, trivial⟩
  have walk : ∀ r ∈ rs, (Law.lexical p (rs.map Prod.snd) active []).Keeps
      (Env.root p active r.1) (analyze r.2) := fun r hr =>
    .read (analyzeIn_lexical hp _ fun m hm => .root (List.mem_map_of_mem hr) hm)
  have all := Law.Keeps.atRoots inv walk
  rw [h] at all
  exact all.2 start

end Build

end ShaderGraph
