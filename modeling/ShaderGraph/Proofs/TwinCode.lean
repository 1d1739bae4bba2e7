import ShaderGraph.Build.Generate
import ShaderGraph.Proofs.TwinInputs

/-!
# Twin code

Twin builds find the same types, bind the same values to names, open the same blocks and write code at
the same places: what the code of a node is decides nothing.
-/

namespace ShaderGraph

variable {α : Type} {same : Prop}

namespace StageBuild

variable {b b' : StageBuild}

theorem shape_add (st : Statement) : (b.add st).shape = b.shape := by
  unfold add
  split
  · rfl
  · next block rest h => simp [shape, h]

theorem shape_closeBlock : b.closeBlock.shape = b.shape.closeBlock := by
  simp [shape, closeBlock, List.map_tail]

theorem currentBlock_shape : b.shape.currentBlock = b.currentBlock := by
  unfold currentBlock shape
  cases b.inner <;> rfl

theorem isOpen_shape (id : BlockId) : b.shape.isOpen id = b.isOpen id := by
  simp only [isOpen, shape, List.any_map]
  rfl

end StageBuild

namespace NodeCache

variable {c c' : NodeCache}

theorem key_shape (h : c.shape = c'.shape) (s : ScopeId) (id : NodeId) (t : Option Stage) :
    c.key s id t = c'.key s id t := by
  have parents : c.parents = c'.parents := congrArg Prod.fst h
  rw [key, key, owner, owner, parents]

/-- Caches of one shape have records of one shape. -/
theorem found (h : Alike same NodeCache.shape c c') (s : ScopeId) (id : NodeId) (t : Option Stage) :
    c.get? s id t = none ∧ c'.get? s id t = none ∨
      ∃ r r', c.get? s id t = some r ∧ c'.get? s id t = some r' ∧
        Alike same CacheRecord.shape r r' := by
  rw [NodeCache.get?, NodeCache.get?, key_shape h.shape]
  exact OrderedMap.found (h.map NodeCache.records fun _ _ h => congrArg (fun c => c.2.2) h) _

theorem usage_shape (h : c.shape = c'.shape) (s : ScopeId) (id : NodeId) (t : Option Stage) :
    c.usage s id t = c'.usage s id t := by
  rw [usage, usage]
  rcases found (.of_shape h) s id t with ⟨hn, hn'⟩ | ⟨r, r', hr, hr', alike⟩
  · rw [hn, hn']
  · rw [hr, hr']
    exact congrArg Prod.fst alike.shape

theorem update_shape (h : c.shape = c'.shape) (s : ScopeId) (id : NodeId) (t : Option Stage)
    {f f' : CacheRecord → CacheRecord} (hf : ∀ r r', r.shape = r'.shape →
      (f r).shape = (f' r').shape) :
    (c.update s id t f).shape = (c'.update s id t f').shape := by
  have records : (f ((c.get? s id t).getD ⟨0, none⟩)).shape =
      (f' ((c'.get? s id t).getD ⟨0, none⟩)).shape := by
    rcases found (.of_shape h) s id t with ⟨hn, hn'⟩ | ⟨r, r', hr, hr', alike⟩
    · rw [hn, hn']
      exact hf _ _ rfl
    · rw [hr, hr']
      exact hf _ _ alike.shape
  show (c.parents, c.derived, OrderedMap.map _ (c.records.put _ _)) =
    (c'.parents, c'.derived, OrderedMap.map _ (c'.records.put _ _))
  rw [OrderedMap.map_put, OrderedMap.map_put, records, key_shape h,
    show c.parents = c'.parents from congrArg (fun c => c.1) h,
    show c.derived = c'.derived from congrArg (fun c => c.2.1) h,
    show c.records.map CacheRecord.shape = c'.records.map CacheRecord.shape from
      congrArg (fun c => c.2.2) h]

end NodeCache

namespace Build.Twins

variable {env env' : Env} {id : NodeId}

/-! ### Types -/

theorem variableType (t : ValueType) :
    Twins same env env' Eq (Build.variableType t) (Build.variableType t) := by
  unfold Build.variableType
  exact .check Iff.rfl fun _ => .pure rfl

theorem conditionalType {typeOf : NodeId → Build ValueType} {condition thenNode : NodeId}
    {elseNode : Option NodeId} (h : ∀ c, Twins same env env' Eq (typeOf c) (typeOf c)) :
    Twins same env env' Eq (Build.conditionalType typeOf condition thenNode elseNode)
      (Build.conditionalType typeOf condition thenNode elseNode) := by
  refine (h condition).bind fun c c' hc => .check (by rw [hc]) fun _ => ?_
  cases elseNode with
  | none => exact .pure rfl
  | some elseNode =>
    refine (h thenNode).bind fun t t' ht => (h elseNode).bind fun e e' he => ?_
    exact .check (by rw [ht, he]) fun _ => .pure ht

theorem counterType (henv : env.Twin same env') (loop : NodeId) (param : Nat) :
    Twins same env env' Eq (Build.counterType loop param) (Build.counterType loop param) := by
  refine (resolve henv loop).bind fun m m' hm => ?_
  subst hm
  refine (node henv m).bind fun n n' hn => ?_
  subst hn
  split
  · split
    · exact .pure rfl
    · exact .fail
  · exact .fail

theorem structType (henv : env.Twin same env') (layout : NodeId) :
    Twins same env env' Eq (Build.structType layout) (Build.structType layout) := by
  refine (resolve henv layout).bind fun m m' hm => ?_
  subst hm
  refine (node henv m).bind fun n n' hn => ?_
  subst hn
  split
  · exact .pure rfl
  · exact .fail

theorem memberType (henv : env.Twin same env') (base : ValueType) (name : String) :
    Twins same env env' Eq (Build.memberType base name) (Build.memberType base name) := by
  unfold Build.memberType
  split
  · refine (structMembers henv _).bind fun members members' hm => ?_
    subst hm
    split
    · exact .pure rfl
    · exact .fail
  · exact .fail

theorem elementType (base index : ValueType) :
    Twins same env env' Eq (Build.elementType base index) (Build.elementType base index) := by
  unfold Build.elementType
  refine .check Iff.rfl fun _ => ?_
  split
  · exact .pure rfl
  · exact .fail

/-- A rule that depends on types only. -/
theorem rule {ε : Type} [Coe ε Cause] (r : Except ε α) :
    Twins same env env' Eq (Build.ofExcept r) (Build.ofExcept r) :=
  .ofExcept (.refl fun _ _ => rfl)

/-- A list of types. -/
theorem types {typeOf : NodeId → Build ValueType}
    (h : ∀ c, Twins same env env' Eq (typeOf c) (typeOf c))
    (ids : List NodeId) : Twins same env env' Eq (ids.mapM typeOf) (ids.mapM typeOf) :=
  (mapM fun c _ => h c).imp fun _ _ h => List.forall₂_eq_eq_eq ▸ h

theorem typeOfNode {typeOf : NodeId → Build ValueType} (henv : env.Twin same env')
    (h : ∀ {e e' : Env}, e.Twin same e' → ∀ c, Twins same e e' Eq (typeOf c) (typeOf c))
    (n : Node) :
    Twins same env env' Eq (Build.typeOfNode typeOf id n) (Build.typeOfNode typeOf id n) := by
  have here := fun c => h henv c
  cases n with
  | const type values => exact rule _
  | meshAttribute name type => exact attributeType henv name type
  | varying source => exact here source
  | var value =>
    refine (here value).bind fun t t' ht => ?_
    exact ht ▸ variableType t
  | operator op left right =>
    refine (here left).bind fun l l' hl => (here right).bind fun r r' hr => ?_
    exact hl ▸ hr ▸ rule _
  | unary op operand => exact (here operand).bind fun t t' ht => ht ▸ rule _
  | math method args => exact (types here args).bind fun ts ts' hts => hts ▸ rule _
  | split source components => exact (here source).bind fun t t' ht => ht ▸ rule _
  | join parts explicit => exact (types here parts).bind fun ts ts' hts => hts ▸ rule _
  | conditional condition thenNode elseNode => exact conditionalType here
  | loopIndex loop param => exact counterType henv loop param
  | stack nodes output =>
    cases output with
    | none => exact .pure rfl
    | some output => exact here output
  | struct layout values => exact structType henv layout
  | array element values => exact rule _
  | member base name => exact (here base).bind fun t t' ht => ht ▸ memberType henv t name
  | index base i =>
    refine (here base).bind fun t t' ht => (here i).bind fun k k' hk => ?_
    exact ht ▸ hk ▸ elementType t k
  | context inner values => exact inContext henv fun he => h he inner
  | contextValue key fallback => exact withContextValue henv fun he c => h he c
  | cache inner => exact here inner
  | call f args =>
    refine (registerFunction henv f).bind fun entry entry' he => .pure ?_
    exact (congrArg FunctionEntry.result he.shape :)
  | remap => exact .fail
  | custom => exact .fail
  | _ => exact .pure rfl

theorem typeOfIn (fuel : Nat) {env env' : Env} (henv : env.Twin same env') (id : NodeId) :
    Twins same env env' Eq (Build.typeOfIn fuel id) (Build.typeOfIn fuel id) := by
  induction fuel generalizing env env' id with
  | zero => exact .exhaust
  | succ fuel ih =>
    refine (resolve henv id).bind fun m m' hm => .read ?_
    subst hm
    refine .get fun s s' hs => ?_
    rw [henv.frames, show s.types = s'.types from congrArg Shape.types hs.shape]
    split
    · exact .pure rfl
    · refine .bind (R := Eq) ?_ fun t t' ht => ?_
      · refine .read (.check (by rw [henv.typing]) fun _ => ?_)
        have inner : Env.Twin same
          { env with typing := (m, Frame.current env'.frames) :: env.typing }
            { env' with typing := (m, Frame.current env'.frames) :: env'.typing } :=
          { henv with typing := congrArg (_ :: ·) henv.typing }
        refine .located ((node inner m).bind fun n n' hn => ?_)
        subst hn
        exact typeOfNode inner (fun he c => ih he c) n
      · subst ht
        refine (Twins.change (fun _ => rfl) fun s s' hs => ?_).bind fun _ _ _ => .pure rfl
        rw [BuildState.shape_putType, BuildState.shape_putType, hs]

theorem depthBound (henv : env.Twin same env') :
    Twins same env env' Eq Build.depthBound Build.depthBound := by
  refine .read (.pure ?_)
  rw [henv.plan.graph.size]

theorem typeOf (henv : env.Twin same env') (id : NodeId) :
    Twins same env env' Eq (Build.typeOf id) (Build.typeOf id) :=
  (depthBound henv).bind fun _ _ h => h ▸ typeOfIn _ henv id

/-! ### Varyings -/

theorem claimVarying {name : Option String} :
    Twins same env env' (Made same) (Build.claimVarying name) (Build.claimVarying name) := by
  cases name with
  | some name => exact claimGlobal (.refl _)
  | none =>
    refine .modifyGet (fun s s' h he => ?_) fun s s' h => ⟨h.shape, fun he => ?_⟩
    · rw [h.eq he]
    · rw [h.eq he]

theorem enterVarying (henv : env.Twin same env') (id source : NodeId) (name : Option String)
    (interpolation : Interpolation) (sampling : Option Sampling) :
    Twins same env env' (Alike same VaryingEntry.shape)
      (Build.enterVarying id source name interpolation sampling)
      (Build.enterVarying id source name interpolation sampling) := by
  refine (stage henv).bind fun t t' ht => .check (by rw [ht]) fun _ => .read ?_
  refine .check (by rw [henv.active]) fun _ => (typeOf henv source).bind fun type type' htype => ?_
  subst htype
  refine .check Iff.rfl fun _ => claimVarying.bind fun emitted emitted' hemitted => ?_
  have alike : Alike same VaryingEntry.shape
      (⟨emitted, type, source, interpolationFor type interpolation, sampling, none⟩ : VaryingEntry)
      ⟨emitted', type, source, interpolationFor type interpolation, sampling, none⟩ :=
    ⟨rfl, fun he => by rw [hemitted he]⟩
  refine (Twins.change (fun he => by rw [alike.eq he]) fun s s' hs => ?_).bind fun _ _ _ =>
    .pure alike
  rw [BuildState.shape_putVarying, BuildState.shape_putVarying, hs, alike.shape]

theorem registerVarying (henv : env.Twin same env') (id source : NodeId) (name : Option String)
    (interpolation : Interpolation) (sampling : Option Sampling) :
    Twins same env env' (Alike same VaryingEntry.shape)
      (Build.registerVarying id source name interpolation sampling)
      (Build.registerVarying id source name interpolation sampling) := by
  refine .get fun s s' h => ?_
  rcases OrderedMap.found (h.map BuildState.varyings fun _ _ h => congrArg Shape.varyings h) id with
    ⟨hn, hn'⟩ | ⟨v, v', hv, hv', alike⟩
  · simp only [hn, hn']
    exact enterVarying henv id source name interpolation sampling
  · simp only [hv, hv']
    exact .pure alike

theorem isWritten {s s' : BuildState} (h : s.shape = s'.shape) (id : NodeId) :
    Build.isWritten s id = Build.isWritten s' id := by
  have written : ∀ s : BuildState, Build.isWritten s id =
      ((s.shape.varyings.get? id).bind VaryingEntry.location).isSome := by
    intro s
    show _ = (((s.varyings.map VaryingEntry.shape).get? id).bind VaryingEntry.location).isSome
    rw [OrderedMap.get?_map, Build.isWritten]
    cases s.varyings.get? id <;> rfl
  rw [written, written, h]

theorem locateVarying {id : NodeId} {v v' : VaryingEntry} (h : Alike same VaryingEntry.shape v v') :
    Twins same env env' (fun _ _ => True) (Build.locateVarying id v)
      (Build.locateVarying id v') := by
  refine .change (fun he => by rw [h.eq he]) fun s s' hs => ?_
  rw [isWritten hs]
  split
  · exact hs
  · have next : s.nextVarying = s'.nextVarying := congrArg Shape.nextVarying hs
    have entry : VaryingEntry.shape { v with location := some s.nextVarying } =
        VaryingEntry.shape { v' with location := some s'.nextVarying } := by
      show { v.shape with location := some s.nextVarying } =
        { v'.shape with location := some s'.nextVarying }
      rw [h.shape, next]
    rw [BuildState.shape_locateVarying, BuildState.shape_locateVarying, hs, entry, next]

/-! ### Names and blocks -/

theorem claimLocal (henv : env.Twin same env') {n n' : String} (h : Made same n n') :
    Twins same env env' (Made same) (Build.claimLocal n) (Build.claimLocal n') := by
  refine .read ?_
  rw [henv.stage]
  refine .modifyGet (fun s s' hs he => ?_) fun s s' hs => ⟨?_, fun he => ?_⟩
  · rw [h he, hs.eq he]
  · exact BuildState.shape_modify hs.shape _ fun b b' hb => hb
  · rw [h he, hs.eq he]

theorem releaseLocal (henv : env.Twin same env') {n n' : String} (h : Made same n n') :
    Twins same env env' (fun _ _ => True) (Build.releaseLocal n) (Build.releaseLocal n') :=
  modifyHere henv (fun he => by rw [h he]) fun _ _ hb => hb

theorem claimTemp (henv : env.Twin same env') :
    Twins same env env' (Made same) Build.claimTemp Build.claimTemp := by
  refine .read ?_
  rw [henv.stage]
  refine .modifyGet (fun s s' hs he => ?_) fun s s' hs => ⟨?_, fun he => ?_⟩
  · rw [hs.eq he]
  · exact BuildState.shape_modify hs.shape _ fun b b' hb => hb
  · rw [hs.eq he]

theorem addStatement (henv : env.Twin same env') {st st' : Statement} (h : Made same st st') :
    Twins same env env' (fun _ _ => True) (Build.addStatement st) (Build.addStatement st') :=
  modifyHere henv (fun he => by rw [h he]) fun b b' hb => by
    rw [StageBuild.shape_add, StageBuild.shape_add, hb]

theorem inBlock (henv : env.Twin same env') {step step' : Build Unit} {S : Unit → Unit → Prop}
    (h : Twins same env env' S step step') :
    Twins same env env' (Made same) (Build.inBlock step) (Build.inBlock step') := by
  refine (collect (f := StageBuild.openBlock) henv fun _ => rfl).bind fun _ _ _ => ?_
  refine h.bind fun _ _ _ => (here henv).bind fun b b' hb => ?_
  refine (collect (f := StageBuild.closeBlock) henv fun _ => StageBuild.shape_closeBlock).bind
    fun _ _ _ => .pure fun he => ?_
  rw [hb.eq he]

/-! ### Values bound to names -/

theorem isVisible (henv : env.Twin same env') {b b' : BoundName}
    (h : Alike same BoundName.shape b b') :
    Twins same env env' Eq (Build.isVisible b) (Build.isVisible b') := by
  have block : b.block = b'.block := congrArg Prod.fst h.shape
  have frame : b.frame = b'.frame := congrArg Prod.snd h.shape
  refine .read ((here henv).bind fun stage stage' hs => .pure ?_)
  rw [block, frame, henv.frames, ← StageBuild.isOpen_shape, hs.shape, StageBuild.isOpen_shape]

theorem boundName? (henv : env.Twin same env') (id : NodeId) :
    Twins same env env' (Alike same Option.isSome) (Build.boundName? id) (Build.boundName? id) := by
  refine .read (.get fun s s' h => ?_)
  rw [henv.scope, henv.stage]
  rcases NodeCache.found (h.map BuildState.cache fun _ _ h => congrArg Shape.cache h) env'.scope id
    (some env'.stage) with ⟨hn, hn'⟩ | ⟨r, r', hr, hr', alike⟩
  · simp only [hn, hn', Option.bind_none]
    exact .pure (.refl _ _)
  · simp only [hr, hr', Option.bind_some]
    have bound : r.bound.map BoundName.shape = r'.bound.map BoundName.shape :=
      congrArg Prod.snd alike.shape
    cases hb : r.bound with
    | none =>
      cases hb' : r'.bound with
      | none => exact .pure (.refl _ _)
      | some b' => simp [hb, hb'] at bound
    | some b =>
      cases hb' : r'.bound with
      | none => simp [hb, hb'] at bound
      | some b' =>
        have alike' : Alike same BoundName.shape b b' :=
          ⟨by simpa [hb, hb'] using bound, fun he =>
            Option.some.inj (hb.symm.trans (alike.eq he ▸ hb'))⟩
        refine (isVisible henv alike').bind fun v v' hv => .pure ?_
        subst hv
        cases v with
        | true => exact ⟨rfl, fun he => by rw [alike'.eq he]⟩
        | false => exact .refl _ _

theorem recordKey (henv : env.Twin same env') (id : NodeId) :
    Twins same env env' Eq (Build.recordKey id) (Build.recordKey id) := by
  refine .read (.get fun s s' h => .pure ?_)
  rw [henv.scope, henv.stage]
  exact NodeCache.key_shape (congrArg Shape.cache h.shape) _ _ _

theorem bindName (henv : env.Twin same env') (id : NodeId) {name name' : String}
    (h : Made same name name') (frame : Option FrameId) :
    Twins same env env' (fun _ _ => True) (Build.bindName id name frame)
      (Build.bindName id name' frame) := by
  refine .read ((here henv).bind fun b b' hb => ?_)
  have block : b.currentBlock = b'.currentBlock := by
    rw [← StageBuild.currentBlock_shape, hb.shape, StageBuild.currentBlock_shape]
  rw [henv.scope, henv.stage, block]
  refine .change (fun he => by rw [h he]) fun s s' hs => ?_
  refine BuildState.shape_cache hs (NodeCache.update_shape (congrArg Shape.cache hs :) _ _ _ ?_)
  exact fun r r' hr => congrArg (fun shape => (shape.1, some (b'.currentBlock, frame))) hr

theorem bindValue (henv : env.Twin same env') (id : NodeId) {name name' : String}
    (h : Made same name name') :
    Twins same env env' (fun _ _ => True) (Build.bindValue id name) (Build.bindValue id name') := by
  refine .read ?_
  rw [henv.frames]
  exact bindName henv id h _

theorem declareTemp (henv : env.Twin same env') (type : ValueType) {init init' : Option Expr}
    (h : Made same init init') (m : Mutability) :
    Twins same env env' (Made same) (Build.declareTemp type init m)
      (Build.declareTemp type init' m) := by
  refine (useType henv type).bind fun _ _ _ => (claimTemp henv).bind fun name name' hname => ?_
  exact (addStatement henv fun he => by rw [hname he, h he]).bind fun _ _ _ => .pure hname

theorem usage (henv : env.Twin same env') (id : NodeId) :
    Twins same env env' Eq (Build.usage id) (Build.usage id) := by
  refine .read (.get fun s s' h => .pure ?_)
  rw [henv.scope, henv.stage]
  exact NodeCache.usage_shape (congrArg Shape.cache h.shape) _ _ _

theorem buildTemp (henv : env.Twin same env') {step step' : Build (Option Expr)}
    (h : Twins same env env' (Alike same Option.isSome) step step') :
    Twins same env env' (Alike same Option.isSome) (Build.buildTemp id step)
      (Build.buildTemp id step') := by
  refine (boundName? henv id).bind fun bound bound' hb => ?_
  rcases hb.option with ⟨rfl, rfl⟩ | ⟨name, name', rfl, rfl, hname⟩
  · refine h.bind fun e e' he => (typeOf henv id).bind fun type type' ht => ?_
    subst ht
    rcases he.option with ⟨rfl, rfl⟩ | ⟨x, x', rfl, rfl, hx⟩
    · exact .pure he
    · refine (usage henv id).bind fun n n' hn => ?_
      subst hn
      refine .ite Iff.rfl (fun _ => .pure he) fun _ => ?_
      refine (declareTemp henv type he.eq .immutable).bind fun name name' hname => ?_
      exact (bindValue henv id hname).bind fun _ _ _ => .pure (hname.map Build.localName).some
  · exact .pure (hname.map Build.localName).some

end Build.Twins

end ShaderGraph
