import ShaderGraph.Proofs.Conversions
import ShaderGraph.Proofs.Inputs
import ShaderGraph.Proofs.Operands

/-!
# Names as words

A name that a table gives out is a word, whatever text it was asked for (`NameTable.isWord_claim`).
`BuildState.Worded` says that all names which a build keeps are words, that joined values are of types
without structs, and that the nodes visited so far gave plain expressions. `Law.wording` says that a
step keeps to this; the steps that fill tables and find types do.
-/

namespace ShaderGraph

/-! ### Tables of names -/

namespace Name

variable {name name' : String}

/-- Every text becomes a word. -/
theorem isWord_sanitize (name : String) : IsWord (sanitize name) := by
  unfold sanitize IsWord
  rw [String.toList_ofList]
  exact ⟨sanitizeChars_ne_nil _, all_sanitizeChars _⟩

theorem IsWord.append (h : IsWord name) (h' : IsWord name') : IsWord (name ++ name') := by
  unfold IsWord
  rw [String.toList_append, List.all_append, h.2, h'.2]
  exact ⟨List.append_ne_nil_of_left_ne_nil h.1 _, rfl⟩

theorem isWord_toString (n : Nat) : IsWord (toString n) := by
  unfold IsWord
  rw [Nat.toString_eq_repr, Nat.toList_repr, List.all_eq_true]
  refine ⟨Nat.toDigits_ne_nil, fun c hc => ?_⟩
  simp [isWordChar, Char.isAlphanum, Text.isDigit_of_mem_toDigits hc]

end Name

namespace NameTable

open Name

theorem isWord_claim (t outer : NameTable) (preferred : String) :
    IsWord (t.claim outer preferred).1 := by
  have base := isWord_sanitize preferred
  show IsWord (suffixed (sanitize preferred) _)
  cases firstFree (t.isTaken outer) (suffixed (sanitize preferred)) (t.candidates outer) 0 with
  | zero => exact base
  | succ n => exact (base.append (by decide)).append (isWord_toString (n + 1))

theorem isWord_claimNumbered (t outer : NameTable) {stem : String} (h : IsWord stem)
    (counter : Nat) : IsWord (t.claimNumbered outer stem counter).1 := h.append (isWord_toString _)

end NameTable

/-! ### States -/

/-- A node that joins parts is of a type which holds no struct. -/
def Plan.Joined (p : Plan) (id : NodeId) (t : ValueType) : Prop :=
  ∀ parts explicit, p.node id = .ok (.join parts explicit) → t.heldStruct? = none

/-- The names that a build keeps are words. -/
structure BuildState.Worded (p : Plan) (s : BuildState) : Prop where
  bound : ∀ k b, s.cache.bound? k = some b → Name.IsWord b.name
  properties : ∀ e name q, (s.stages.get e).properties.get? name = some q → Name.IsWord q.2
  groups : ∀ group g, s.groups.get? group = some g → Name.IsWord g.inst
  uniforms : ∀ key u, s.uniforms.get? key = some u → Name.IsWord u.member
  textures : ∀ name t, s.textures.get? name = some t → Name.IsWord t.name ∧ Name.IsWord t.sampler
  storage : ∀ name b, s.storage.get? name = some b → Name.IsWord b.name
  attributes : ∀ name a, s.attributes.get? name = some a → Name.IsWord a.name
  varyings : ∀ id v, s.varyings.get? id = some v → Name.IsWord v.name
  functions : ∀ id f, s.functions.get? id = some f → Name.IsWord f.name
  types : ∀ key t, s.types.get? key = some t → p.Joined key.1 t
  visits : ∀ v ∈ s.visits, ∀ e, v.code = some e → e.Plain

/-- Nothing is named at the start. -/
theorem BuildState.worded_start (p : Plan) : (BuildState.start p).Worded p where
  bound _ _ h := nomatch h
  properties e _ _ h := by cases e <;> cases h
  groups _ _ h := nomatch h
  uniforms _ _ h := nomatch h
  textures _ _ h := nomatch h
  storage _ _ h := nomatch h
  attributes _ _ h := nomatch h
  varyings _ _ h := nomatch h
  functions _ _ h := nomatch h
  types _ _ h := nomatch h
  visits _ h := nomatch h

/-- What steps keep to that name things by words. -/
def Law.wording (p : Plan) : Law where
  inv env s := env.plan = p ∧ s.Worded p
  rel _ s s' := s.Worded p → s'.Worded p
  ends _ := True
  refl _ := id
  trans h h' := h' ∘ h
  mono hi hr := ⟨hi.1, hr hi.2⟩
  loops _ hi := hi
  ordinary _ := trivial
  located _ := trivial

namespace Build

open Law BuildState

variable {p : Plan} {env : Env} {s : BuildState} {α : Type}

/-- What was collected for a stage changes, but not the names of its properties. -/
theorem worded_modify {e : Stage} {f : StageBuild → StageBuild}
    (hf : ∀ b, (f b).properties = b.properties) (h : s.Worded p) :
    { s with stages := s.stages.modify e f }.Worded p :=
  { h with
    properties := fun t name q hq =>
      h.properties t name q ((s.stages.map_get_modify e t hf) ▸ hq) }

/-- The contexts have no names. -/
theorem worded_frames {frames : FrameTable} (h : s.Worded p) :
    { s with frames := frames }.Worded p := { h with }

theorem wording_modifyHere {f : StageBuild → StageBuild}
    (hf : ∀ b, (f b).properties = b.properties) : (Law.wording p).Keeps env (modifyHere f) :=
  fun _ _ => worded_modify hf

/-! ### Names -/

theorem claimGlobal_wording (name : String) :
    (Law.wording p).Yields env (claimGlobal name) Name.IsWord :=
  fun s _ => ⟨fun h => { h with }, s.globals.isWord_claim .empty name⟩

theorem claimBinding_wording (n : Nat) : (Law.wording p).Keeps env (claimBinding n) :=
  fun _ _ h => { h with }

theorem claimLocal_wording (name : String) :
    (Law.wording p).Yields env (claimLocal name) Name.IsWord :=
  fun _ _ => ⟨worded_modify fun _ => rfl, NameTable.isWord_claim _ _ _⟩

theorem releaseLocal_wording (name : String) : (Law.wording p).Keeps env (releaseLocal name) :=
  wording_modifyHere fun _ => rfl

theorem claimTemp_wording : (Law.wording p).Yields env claimTemp Name.IsWord :=
  fun _ _ => ⟨worded_modify fun _ => rfl, NameTable.isWord_claimNumbered _ _ (by decide) _⟩

theorem addStatement_wording (st : Statement) : (Law.wording p).Keeps env (addStatement st) := by
  refine wording_modifyHere fun b => ?_
  unfold StageBuild.add
  cases b.inner <;> rfl

theorem bindName_wording (id : NodeId) {name : String} (h : Name.IsWord name)
    (frame : Option FrameId) : (Law.wording p).Keeps env (bindName id name frame) := by
  refine .read (.bind .here fun b s _ hs => { hs with bound := fun k b hb => ?_ })
  rw [NodeCache.bound?_bind] at hb
  split at hb
  · cases hb
    exact h
  · exact hs.bound k b hb

/-- A node is bound to a word. -/
theorem boundName?_wording (id : NodeId) :
    (Law.wording p).Yields env (boundName? id) fun n => ∀ name, n = some name → Name.IsWord name := by
  refine .read fun s hs => ?_
  rw [meets_bind, meets_get]
  cases found : (s.cache.get? env.scope id (some env.stage)).bind CacheRecord.bound with
  | none => exact ⟨fun h => h, fun _ h => nomatch h⟩
  | some b =>
    have word : Name.IsWord b.name := hs.2.bound _ b found
    refine Yields.after (.isVisible b) (fun visible => .pure fun name hn => ?_) s hs
    split at hn
    · exact Option.some.inj hn ▸ word
    · cases hn

/-! ### Types and functions -/

theorem markType_wording (t : ValueType) : (Law.wording p).Keeps env (markType t) :=
  .read (.markTypeIn trivial (fun _ => wording_modifyHere fun _ => rfl) _ t)

theorem useType_wording (t : ValueType) : (Law.wording p).Keeps env (useType t) :=
  .useType markType_wording t

theorem functionEntry_wording (native : NativeFunction) (f : Native.Declaration)
    (includes : List String) :
    (Law.wording p).Yields env (functionEntry native f includes) fun e => Name.IsWord e.name := by
  intro s hs
  refine (Law.Keeps.functionEntry (fun name => (claimGlobal_wording name).keeps)
    (fun _ _ _ h => { h with }) native f includes s hs).and ?_
  refine (functionEntry_renders native f includes).imp fun e _ ⟨he, hc, _⟩ => ?_
  have word : Name.IsWord e.claimed := hc ▸ s.globals.isWord_claim .empty f.name
  show Name.IsWord e.name
  rcases he.name with hn | hn
  · rwa [hn]
  · rw [hn]
    exact word.underscored

theorem registerFunctionIn_wording (fuel : Nat) (path : List FunctionId) (id : FunctionId) :
    (Law.wording p).Yields env (registerFunctionIn fuel path id) fun e => Name.IsWord e.name := by
  induction fuel generalizing path id with
  | zero => exact fun _ _ => trivial
  | succ fuel ih =>
    intro s hs
    rw [registerFunctionIn, meets_bind, meets_get]
    cases found : s.functions.get? id with
    | some e => exact ⟨fun h => h, hs.2.functions id e found⟩
    | none =>
      refine Yields.check rfl (fun _ => .read ?_) s hs
      split
      · exact .fail rfl
      · refine .after (.mapM fun i _ => (ih _ i).keeps) fun included => ?_
        refine .after (.ofExcept fun _ _ => rfl) fun f => ?_
        refine .bind (functionEntry_wording _ f _) fun e he => .after (fun s _ h => ?_) fun _ => .pure he
        exact { h with functions := OrderedMap.forall_get?_put he h.functions }

theorem registerFunction_wording (f : FunctionId) :
    (Law.wording p).Yields env (registerFunction f) fun e => Name.IsWord e.name :=
  .after (.read (.pure _)) fun fuel => registerFunctionIn_wording fuel [] f

theorem useFunction_wording (f : FunctionId) : (Law.wording p).Keeps env (useFunction f) :=
  .bind (.read (.pure _)) fun fuel => .useFunctionIn trivial markType_wording
    (fun f => (registerFunction_wording f).keeps) (fun _ => wording_modifyHere fun _ => rfl) fuel f

/-! ### Types of nodes -/

/-- The type of a node comes from what was found before, or from the types of the nodes below. -/
theorem typeOfNode_wording {typeOf : NodeId → Build ValueType} {m : NodeId} {n : Node}
    (hn : p.node m = .ok n) (h : ∀ env c, (Law.wording p).Keeps env (typeOf c)) :
    (Law.wording p).Yields env (typeOfNode typeOf m n) (p.Joined m) := by
  have other : (∀ parts explicit, n ≠ .join parts explicit) → ∀ t, p.Joined m t :=
    fun hj t parts explicit hn' => absurd (Except.ok.inj (hn.symm.trans hn')) (hj parts explicit)
  cases n with
  | join parts explicit =>
    refine .after (.mapM fun c _ => h env c) fun ts => .ofExcept (fun _ _ => rfl) fun t ht => ?_
    exact fun _ _ _ => heldStruct?_of_joinType ht
  | context inner values =>
    refine .ofKeeps (fun s hs => ?_) (other fun _ _ h => nomatch h)
    show Meets (inContext m values (typeOf inner)) env s _ _
    rw [meets_inContext]
    have below : ∀ f, (Law.wording p).Keeps (inside env f values) (typeOf inner) := fun _ => h _ inner
    exact (below _ _ ⟨hs.1, worded_frames hs.2⟩).imp fun _ _ hr h => hr (worded_frames h)
  | contextValue key fallback =>
    refine .ofKeeps (fun s hs => ?_) (other fun _ _ h => nomatch h)
    show Meets (withContextValue key fallback typeOf) env s _ _
    rw [meets_withContextValue]
    split
    · exact h _ _ s hs
    · exact h _ _ s hs
    · trivial
  | _ =>
    refine .ofKeeps (.typeOfNode (fun f => (registerFunction_wording f).keeps) ?_ ?_
      fun c _ => h env c) (other fun _ _ h => nomatch h)
    · exact fun _ _ h => nomatch h
    · exact fun _ _ h => nomatch h

theorem typeOfIn_wording (fuel : Nat) (id : NodeId) : (Law.wording p).Yields env (typeOfIn fuel id)
    fun t => ∀ m, p.resolve id = .ok m → p.Joined m t := by
  induction fuel generalizing env id with
  | zero => exact fun _ _ => trivial
  | succ fuel ih =>
    rintro s ⟨rfl, hs⟩
    have only : ∀ {m t}, env.plan.resolve id = .ok m → env.plan.Joined m t →
        ∀ m', env.plan.resolve id = .ok m' → env.plan.Joined m' t := by
      rintro m t hm ht m' hm'
      cases hm.symm.trans hm'
      exact ht
    refine meets_typeOfIn (fun _ => trivial)
      (fun m t hm ht => ⟨fun h => h, only hm (hs.types _ t ht)⟩) fun m n hm hn _ _ => ?_
    have below : (Law.wording env.plan).Yields
        { env with typing := (m, Frame.current env.frames) :: env.typing }
        (typeOfNode (typeOfIn fuel) m n) (env.plan.Joined m) :=
      typeOfNode_wording hn fun _ c => (ih c).keeps
    refine (below s ⟨rfl, hs⟩).imp fun t s' hr => ?_
    refine ⟨fun h => { hr.1 h with types := fun key t' h' => ?_ }, only hm hr.2⟩
    rcases OrderedMap.get?_of_put h' with ⟨rfl, rfl⟩ | ⟨-, h'⟩
    · exact hr.2
    · exact (hr.1 h).types key t' h'

/-- The type of a node that joins parts holds no struct. -/
theorem typeOf_joined (id : NodeId) : (Law.wording p).Yields env (typeOf id)
    fun t => ∀ m, p.resolve id = .ok m → p.Joined m t :=
  .after (.read (.pure _)) fun fuel => typeOfIn_wording fuel id

theorem typeOf_wording (id : NodeId) : (Law.wording p).Keeps env (typeOf id) :=
  (typeOf_joined id).keeps

/-! ### Uniforms -/

theorem putGroup_wording (group : String) {g : GroupEntry} (hg : Name.IsWord g.inst) :
    (Law.wording p).Keeps env (putGroup group g) :=
  fun _ _ h => { h with groups := OrderedMap.forall_get?_put hg h.groups }

theorem groupEntry_wording (group : String) :
    (Law.wording p).Yields env (groupEntry group) fun g => Name.IsWord g.inst := by
  refine .get fun s hs => ?_
  split
  · next g found => exact .pure (hs.2.groups group g found)
  · refine .after (claimGlobal_wording _).keeps fun block => ?_
    refine .bind (claimGlobal_wording _) fun inst hi => ?_
    exact .after (putGroup_wording group hi) fun _ => .pure hi

theorem uniformEntry_wording (key : UniformKey) (type : ValueType) (update : Cadence)
    (value : List Float32) (id : NodeId) :
    (Law.wording p).Yields env (uniformEntry key type update value id) fun u =>
      Name.IsWord u.member := by
  refine .get fun s hs => ?_
  split
  · next u found => exact .check rfl fun _ => .pure (hs.2.uniforms key u found)
  · refine .bind (groupEntry_wording _) fun g hg => .bind (claimGlobal_wording _) fun member hm => ?_
    refine .after (putGroup_wording _ hg) fun _ => .after (fun s _ h => ?_) fun _ => .pure hm
    exact { h with uniforms := OrderedMap.forall_get?_put hm h.uniforms }

theorem scheduleUniform_wording (key : UniformKey) (update : Cadence) (id : NodeId) :
    (Law.wording p).Keeps env (scheduleUniform key update id) := by
  have record : (Law.wording p).Keeps env (do
      let uid := (← read).plan.graph.uid
      modify fun s => { s with updates := s.updates.put id ⟨uid, id, key.name, update⟩ }) :=
    .read fun _ _ h => { h with }
  refine .ite (fun _ => .pure _) fun _ => .using (groupEntry_wording _) fun g hg => ?_
  split
  · exact .when (fun _ => .fail rfl) fun _ => record
  · exact .bind (putGroup_wording _ hg) fun _ => record

theorem registerUniform_wording (id : NodeId) (name : String) (type : ValueType)
    (group : Option String) (update : Cadence) (value : List Float32) :
    (Law.wording p).Yields env (registerUniform id name type group update value) fun r =>
      Name.IsWord r.2.member := by
  unfold registerUniform
  refine .ite (fun _ _ _ => trivial) fun _ => ?_
  refine .bind (uniformEntry_wording _ _ _ _ _) fun u hu => ?_
  exact .after (scheduleUniform_wording _ _ _) fun _ => .pure hu

theorem useUniform_wording (group : String) {u : UniformEntry} (hu : Name.IsWord u.member) :
    (Law.wording p).Yields env (useUniform group u) Expr.Plain := by
  refine .bind (groupEntry_wording _) fun g hg => ?_
  have declare : (Law.wording p).Yields env (do
      modifyHere fun b => { b with groups := appendNew b.groups group }
      return Expr.reference (.uniform g.inst u.member)) Expr.Plain :=
    .after (wording_modifyHere fun _ => rfl) fun _ => .pure (.reference ⟨hg, hu⟩)
  refine .ite (fun _ => ?_) fun _ => declare
  exact .after (claimBinding_wording _) fun binding => .after (putGroup_wording _ hg) fun _ => declare

/-! ### Textures, storage buffers and attributes -/

theorem registerTexture_wording (name : String) :
    (Law.wording p).Yields env (registerTexture name) fun t =>
      Name.IsWord t.name ∧ Name.IsWord t.sampler := by
  refine .get fun s hs => ?_
  split
  · next t found => exact .pure (hs.2.textures name t found)
  · refine .bind (claimGlobal_wording _) fun texture ht => ?_
    refine .bind (claimGlobal_wording _) fun sampler hsampler => .after (fun s _ h => ?_) fun _ =>
      .pure ⟨ht, hsampler⟩
    exact { h with textures := OrderedMap.forall_get?_put ⟨ht, hsampler⟩ h.textures }

theorem useTexture_wording (name : String) :
    (Law.wording p).Yields env (useTexture name) fun t =>
      Name.IsWord t.name ∧ Name.IsWord t.sampler := by
  refine .bind (registerTexture_wording name) fun t ht => ?_
  have declare : (Law.wording p).Yields env (do
      modifyHere fun b => { b with textures := appendNew b.textures name }
      return t) fun t => Name.IsWord t.name ∧ Name.IsWord t.sampler :=
    .after (wording_modifyHere fun _ => rfl) fun _ => .pure ht
  refine .ite (fun _ => ?_) fun _ => declare
  refine .after (claimBinding_wording _) fun binding => .after (fun s _ h => ?_) fun _ => declare
  exact { h with textures := OrderedMap.forall_get?_put ht h.textures }

theorem registerStorage_wording (name : String) (element : ValueType) (count : Option UInt32)
    (access : Access) : (Law.wording p).Yields env (registerStorage name element count access)
      fun b => Name.IsWord b.name := by
  have put : ∀ b : StorageEntry, Name.IsWord b.name → (Law.wording p).Yields env (do
      modify fun s => { s with storage := s.storage.put name b }
      return b) fun b => Name.IsWord b.name := fun b hb =>
    .after (fun s _ h => { h with storage := OrderedMap.forall_get?_put hb h.storage })
      fun _ => .pure hb
  refine .get fun s hs => ?_
  split
  · next b found =>
    have word := hs.2.storage name b found
    refine .check rfl fun _ => put _ ?_
    split
    · exact word
    · exact word
  · refine .check rfl fun _ => .bind (claimGlobal_wording _) fun emitted he => ?_
    exact .after (claimGlobal_wording _).keeps fun block => put _ he

theorem useStorage_wording (name : String) {b : StorageEntry} (hb : Name.IsWord b.name) :
    (Law.wording p).Yields env (useStorage name b) Expr.Plain := by
  have declare : (Law.wording p).Yields env (do
      markType b.element
      modifyHere fun h => { h with storage := appendNew h.storage name }
      return Expr.reference (.storage b.name)) Expr.Plain :=
    .after (markType_wording _) fun _ =>
      .after (wording_modifyHere fun _ => rfl) fun _ => .pure (.reference hb)
  refine .ite (fun _ => ?_) fun _ => declare
  refine .after (claimBinding_wording _) fun binding => .after (fun s _ h => ?_) fun _ => declare
  exact { h with storage := OrderedMap.forall_get?_put hb h.storage }

theorem registerAttribute_wording (name : String) (explicit : Option ValueType) :
    (Law.wording p).Yields env (registerAttribute name explicit) fun a => Name.IsWord a.name := by
  refine .after (.attributeType name explicit) fun type => .check rfl fun _ => ?_
  refine .get fun s hs => ?_
  split
  · next a found => exact .check rfl fun _ => .pure (hs.2.attributes name a found)
  · refine .bind (claimGlobal_wording _) fun emitted he => .after (fun s _ h => ?_) fun _ => .pure he
    exact { h with attributes := OrderedMap.forall_get?_put he h.attributes }

theorem useAttribute_wording (name : String) (explicit : Option ValueType) :
    (Law.wording p).Yields env (useAttribute name explicit) Expr.Plain := by
  refine .bind (registerAttribute_wording name explicit) fun a ha => ?_
  refine .when (fun _ s _ h => ?_) fun _ =>
    .after (wording_modifyHere fun _ => rfl) fun _ => .pure (.reference ha)
  exact { h with attributes := OrderedMap.forall_get?_put ha h.attributes }

theorem useBuiltin_wording (b : Builtin) :
    (Law.wording p).Yields env (useBuiltin b) Expr.Plain :=
  .after .stage fun _ => .check rfl fun _ =>
    .after (wording_modifyHere fun _ => rfl) fun _ => .pure (.reference trivial)

/-! ### Varyings -/

theorem claimVarying_wording (name : Option String) :
    (Law.wording p).Yields env (claimVarying name) Name.IsWord := by
  cases name with
  | some name => exact claimGlobal_wording _
  | none =>
    exact fun s _ => ⟨fun h => { h with }, s.globals.isWord_claimNumbered .empty (by decide) _⟩

theorem registerVarying_wording (id source : NodeId) (name : Option String)
    (interpolation : Interpolation) (sampling : Option Sampling) :
    (Law.wording p).Yields env (registerVarying id source name interpolation sampling) fun v =>
      Name.IsWord v.name := by
  refine .get fun s hs => ?_
  split
  · next v found => exact .pure (hs.2.varyings id v found)
  · refine .after .stage fun _ => .check rfl fun _ => .read (.check rfl fun _ => ?_)
    refine .after (typeOf_wording source) fun type => .check rfl fun _ => ?_
    refine .bind (claimVarying_wording name) fun emitted he => .after (fun s _ h => ?_) fun _ =>
      .pure he
    exact { h with varyings := OrderedMap.forall_get?_put he h.varyings }

theorem locateVarying_wording (id : NodeId) {v : VaryingEntry} (hv : Name.IsWord v.name) :
    (Law.wording p).Keeps env (locateVarying id v) := by
  intro s _
  unfold locateVarying
  rw [meets_modify]
  split
  · exact fun h => h
  · exact fun h => { h with varyings := OrderedMap.forall_get?_put hv h.varyings }

/-! ### Analysis -/

theorem wording_enters : (Law.wording p).Enters where
  uniform id name type group update value :=
    (registerUniform_wording id name type group update value).keeps
  texture name := (registerTexture_wording name).keeps
  storage name element count access := (registerStorage_wording name element count access).keeps
  meshAttribute name type := (registerAttribute_wording name type).keeps

theorem wording_roams : (Law.wording p).Roams where
  ends _ := trivial
  around hi hp _ := ⟨hp.trans hi.1, hi.2⟩
  frames _ _ := worded_frames
  scopes _ _ _ h := { h with
    bound := fun k b hb =>
      h.bound k b (NodeCache.bound?_of_records NodeCache.records_scopeFor ▸ hb) }
  functions f := (registerFunction_wording f).keeps

theorem analyze_wording (id : NodeId) : (Law.wording p).Keeps env (analyze id) := by
  have counted : ∀ (s : BuildState) env m, s.Worded p → (s.counting env m).Worded p := fun _ _ _ h =>
    { h with bound := fun k b hb => h.bound k b (NodeCache.bound?_count ▸ hb) }
  exact .read (wording_roams.analyzeIn wording_enters counted
    (fun _ id source name interpolation sampling _ =>
      (registerVarying_wording id source name interpolation sampling).keeps) _ id)

end Build

end ShaderGraph
