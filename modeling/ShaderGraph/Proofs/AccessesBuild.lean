import ShaderGraph.Proofs.Accesses
import ShaderGraph.Proofs.Entered
import ShaderGraph.Proofs.NumberingBuild

/-!
# Builds and their accesses

All code that generation makes takes only members that there are, supplies struct values with what
their layouts ask for, and writes constant indices within the bounds that are known
(`granting_sustained`). So it is in the programs of every build (`accesses_right`).
-/

namespace ShaderGraph

open Build BuildState

/-- What code consists of, and what is known of places and visits. -/
inductive AccessItem where
  | access (e : Expr)
  | place (frame : FrameId) (id : NodeId) (e : Expr) (type : ValueType)
  | visit (frame : FrameId) (id : NodeId) (code : Option Expr) (n : Node)

/-- An access is right, a place is code of its node, and a visit is right. -/
def AccessItem.Holds (p : Plan) (s : BuildState) : AccessItem → Prop
  | access e => s.Grants p e
  | place frame id e t => s.Denotes p frame id e t
  | visit frame id code n => s.Heeds p frame id code n

/-- Whether something has to hold of a visit to a node. -/
def NodeOf.isHeeded : Node → Bool
  | .index .. | .assign .. => true
  | _ => false

/-- Code consists of accesses, which have to be right. -/
def CodeSupply.accesses (p : Plan) : CodeSupply AccessItem where
  law := .granting p
  has _ s x := x.Holds p s
  keep {_ _ _ x} hr hx := by
    cases x with
    | access e => exact hr.grants hx
    | place frame id e t => exact hx.mono hr.finds.types hr.visits
    | visit frame id code n => exact hx.mono hr.finds.types hr.visits
  items e := e.accesses.map .access
  spelled _ := []
  placed env id r :=
    r.1.accesses.map .access ++ [.place (Frame.current env.frames) id r.1 r.2]
  visited env id n code :=
    if n.isHeeded then [.visit (Frame.current env.frames) id code n] else []

namespace Build

open Law CodeSupply

variable {p : Plan} {env : Env} {s s' : BuildState} {id : NodeId} {fuel : Nat}

/-! ### Statements -/

theorem ownItems_accesses (st : Statement) :
    (CodeSupply.accesses p).ownItems st = st.ownAccesses.map .access := by
  have option : ∀ e : Option Expr,
      (CodeSupply.accesses p).optionItems e = (Expr.optionAccesses e).map .access := fun e => by
    cases e <;> rfl
  cases st with
  | declare _ _ init => exact option init
  | call _ args =>
    show args.flatMap (fun e => e.accesses.map AccessItem.access) =
      (Expr.accessesIn args).map AccessItem.access
    rw [Expr.accessesIn_eq, List.map_flatMap]
  | assign | update => exact List.map_append.symm
  | jump | branch => rfl
  | loop => exact List.map_append.symm

theorem statementItems_accesses (ss : List Statement) :
    (CodeSupply.accesses p).statementItems ss = (Statement.accessesIn ss).map .access := by
  unfold CodeSupply.statementItems Statement.accessesIn
  rw [Statement.map_collectIn]
  exact congrArg (Statement.collectIn · ss) (funext ownItems_accesses)

theorem optionItems_accesses (e : Option Expr) :
    (CodeSupply.accesses p).optionItems e = (Expr.optionAccesses e).map .access := by
  cases e <;> rfl

theorem stageItems_accesses (b : StageBuild) :
    (CodeSupply.accesses p).stageItems b = b.accesses.map .access := by
  unfold CodeSupply.stageItems StageBuild.accesses StageBuild.collect
  have block : ∀ ss, Statement.collectIn (CodeSupply.accesses p).ownItems ss =
      (Statement.accessesIn ss).map .access := statementItems_accesses
  simp only [statementItems_accesses, optionItems_accesses, block, List.map_append, List.map_flatMap]
  rfl

theorem holds_accesses {es : List Expr} :
    (∀ x ∈ es.map AccessItem.access, x.Holds p s) ↔ ∀ e ∈ es, s.Grants p e :=
  List.forall_mem_map

/-! ### Values -/

theorem accesses_composed : (CodeSupply.accesses p).Composed where
  toPlain := granting_plain
  ends _ := trivial
  parts e he := by
    show e.accesses.map AccessItem.access ⊆ _ ++ e.parts.flatMap fun x => x.accesses.map .access
    rw [Expr.accesses_eq he, List.map_flatMap]
    exact List.subset_append_right _ _
  plain _ := nofun
  spells t := .keep (granting_plain.useType t)
  typeOf id _ hi := (typeOf_granting id hi).imp fun _ _ hr => hr.1
  items_placed _ := List.subset_append_left _ _
  collected hi stage := by
    rw [stageItems_accesses]
    exact holds_accesses.2 (hi.2.2.2.code stage)
  modify _ hx := by
    refine .modify fun e he => ?_
    rw [stageItems_accesses, stageItems_accesses] at hx
    refine (hx (.access e) (List.mem_map_of_mem he)).imp_left fun hm => ?_
    obtain ⟨_, hm, same⟩ := List.mem_map.1 hm
    cases same
    exact hm

/-- What is emitted is code of the node. -/
theorem generator_codes (c : NodeId) : Meets ((generator fuel).emit c) env s (fun _ => True)
    fun code s' => ∀ e ∈ code, ∃ m, env.plan.resolve c = .ok m ∧
      s'.Codes env.plan (Frame.current env.frames) m e := by
  cases fuel with
  | zero => trivial
  | succ fuel =>
    show Meets (resolve c >>= _) env s _ _
    rw [meets_bind, meets_resolve]
    cases hm : env.plan.resolve c with
    | error f => trivial
    | ok m =>
      dsimp only
      rw [meets_bind, meets_get, meets_bind]
      refine (meets_true _).imp fun code s' _ e he => ⟨m, rfl, ?_⟩
      exact .visit (v := visitAt env s m code) (.head _) he rfl

section

variable (hg : (CodeSupply.accesses p).Serves (generator fuel))

include hg

/-- The code of a node and what is known of its accesses. -/
theorem emit_granting (c : NodeId) (hi : (Law.granting p).inv env s) :
    Meets ((generator fuel).emit c) env s (fun _ => True) fun code s' => s.Furthers p s' ∧
      (∀ x ∈ Expr.optionAccesses code, s'.Grants p x) ∧
        ∀ e ∈ code, ∃ m, p.resolve c = .ok m ∧ s'.Codes p (Frame.current env.frames) m e := by
  have codes : Meets ((generator fuel).emit c) env s (fun _ => True) _ := generator_codes c
  rw [hi.1.1] at codes
  refine ((hg.emit c s hi nofun).and codes).imp fun code s' hr => ⟨hr.1.1, ?_, hr.2⟩
  exact holds_accesses.1 (optionItems_accesses (p := p) code ▸ hr.1.2)

/-- A value is the code of its node as one of the type that is asked for. -/
theorem value_granting (c : NodeId) (target : ValueType) (hi : (Law.granting p).inv env s) :
    Meets ((generator fuel).value c target) env s (fun _ => True) fun e s' => s.Furthers p s' ∧
      (∀ x ∈ e.accesses, s'.Grants p x) ∧
        s'.Supplies p (Frame.current env.frames) c target e := by
  have supplied : Meets ((generator fuel).value c target) env s (fun _ => True) fun e s' =>
      s'.Supplies p (Frame.current env.frames) c target e := by
    obtain ⟨⟨rfl, -⟩, -⟩ := id hi
    unfold Generator.value
    rw [meets_bind, meets_resolve]
    cases hm : env.plan.resolve c with
    | error f => trivial
    | ok m =>
      have hmm := Plan.resolve_of_resolve hm
      dsimp only
      rw [meets_located, meets_bind]
      refine (emit_granting hg m hi).imp fun code s₁ ⟨grows, _, codes⟩ => ?_
      rw [meets_bind]
      refine (typeOf_granting m (inv_of_furthers hi grows)).imp fun t s₂ ⟨grows', found⟩ => ?_
      cases code with
      | none => trivial
      | some e =>
        refine meets_check fun _ => ?_
        rw [meets_ofExcept]
        split
        · next e' he =>
          obtain ⟨_, same, code⟩ := codes e rfl
          cases hmm.symm.trans same
          exact ⟨e, t, ⟨m, hm, code.mono grows'.finds.types grows'.visits, found m hmm⟩, he⟩
        · trivial
  have made : (CodeSupply.accesses p).Makes env [] ((generator fuel).value c target)
      (CodeSupply.accesses p).items := accesses_composed.value hg c target
  refine ((made s hi nofun).and supplied).imp fun e s' hr => ?_
  exact ⟨hr.1.1, holds_accesses.1 hr.1.2, hr.2⟩

/-- Values that are asked for one after the other. -/
theorem values_granting (ids : List (NodeId × ValueType)) (hi : (Law.granting p).inv env s) :
    Meets ((generator fuel).values ids) env s (fun _ => True) fun es s' => s.Furthers p s' ∧
      (∀ x ∈ Expr.accessesIn es, s'.Grants p x) ∧
        List.Forall₂ (fun v e => s'.Supplies p (Frame.current env.frames) v.1 v.2 e) ids es := by
  unfold Generator.values
  induction ids generalizing s with
  | nil => exact ⟨.refl s, nofun, .nil⟩
  | cons v rest ih =>
    rw [List.mapM_cons, meets_bind]
    refine (value_granting hg v.1 v.2 hi).imp fun e s₁ ⟨grows, right, supplied⟩ => ?_
    rw [meets_bind]
    refine (ih (inv_of_furthers hi grows)).imp fun es s₂ ⟨grows', rights, all⟩ => ?_
    refine ⟨.trans grows grows', ?_, .cons (supplied.mono grows'.finds.types grows'.visits) all⟩
    exact List.forall_mem_append.2 ⟨fun x hx => grows'.grants (right x hx), rights⟩

/-! ### Joined values, struct values and members -/

/-- What is joined is no struct value. -/
theorem join_granting {parts : List NodeId} {type : Option ValueType} (hm : p.resolve id = .ok id)
    (hn : p.node id = .ok (.join parts type)) (hi : (Law.granting p).inv env s) :
    Meets (buildJoin (generator fuel) id parts) env s (fun _ => True) fun e s' =>
      s.Furthers p s' ∧ ∀ x ∈ e.accesses, s'.Grants p x := by
  unfold buildJoin
  rw [meets_bind]
  refine (typeOf_granting id hi).imp fun t s₁ ⟨grows, found⟩ => ?_
  have hi₁ := inv_of_furthers hi grows
  have held : t.heldStruct? = none := hi₁.2.1.suits (found id hm) hn
  have rest : (CodeSupply.accesses p).Makes env [] (do
      let parts ← parts.mapM fun part => do
        (generator fuel).value part ((← typeOf part).recast (t.scalarKind.getD .float))
      useType t
      return Expr.construct t parts) (CodeSupply.accesses p).items := by
    refine .bind (.mapM fun c _ => .after (accesses_composed.typeOf c) fun t' =>
      accesses_composed.value hg c _) fun es => .after (accesses_composed.useType t) fun _ => ?_
    refine .done (accesses_composed.construct held fun a ha => .of_subset fun x hx => ?_)
    exact List.mem_append_left _ (List.mem_flatMap.2 ⟨a, ha, hx⟩)
  refine (rest s₁ hi₁ nofun).imp fun e s' hr => ?_
  exact ⟨.trans grows hr.1, holds_accesses.1 hr.2⟩

/-- A struct value has an argument for each member. -/
theorem struct_granting {layout : NodeId} {values : List NodeId} (hm : p.resolve id = .ok id)
    (hn : p.node id = .ok (.struct layout values)) (hi : (Law.granting p).inv env s) :
    Meets (buildStruct (generator fuel) id values) env s (fun _ => True) fun e s' =>
      s.Furthers p s' ∧ ∀ x ∈ e.accesses, s'.Grants p x := by
  unfold buildStruct
  rw [meets_bind]
  refine (typeOf_granting id hi).imp fun t s₁ ⟨grows, found⟩ => ?_
  have hi₁ := inv_of_furthers hi grows
  rw [meets_bind, meets_structMembers, hi.1.1]
  cases layout : p.structs.get? t.name with
  | none => trivial
  | some members =>
    refine meets_check fun same => ?_
    rw [meets_bind]
    refine (values_granting hg _ hi₁).imp fun args s₂ ⟨grows', rights, all⟩ => ?_
    rw [meets_bind]
    refine (accesses_composed.useType t s₂ (inv_of_furthers hi₁ grows')).imp fun _ s₃ grows'' => ?_
    have later : s₁.Furthers p s₃ := .trans grows' grows''
    refine ⟨.trans grows later, ?_⟩
    have args_right : ∀ x ∈ Expr.accessesIn args, s₃.Grants p x :=
      fun x hx => grows''.grants (rights x hx)
    cases t with
    | struct name =>
      have args_supplied := all.imp fun _ _ h => h.mono grows''.finds.types grows''.visits
      exact List.forall_mem_cons.2 ⟨⟨_, id, .construct hn (later.finds.types (found id hm)) layout
        (not_not.1 same) args_supplied⟩, args_right⟩
    | _ => exact args_right

/-- A member is one that the layout of the struct has. -/
theorem member_granting {base : NodeId} {name : String} (hn : p.node id = .ok (.member base name))
    (hi : (Law.granting p).inv env s) :
    Meets (buildMember (generator fuel) base name) env s (fun _ => True) fun e s' =>
      s.Furthers p s' ∧ ∀ x ∈ Expr.optionAccesses e, s'.Grants p x := by
  unfold buildMember
  rw [meets_bind]
  refine (typeOf_granting base hi).imp fun t s₁ ⟨grows, found⟩ => ?_
  rw [meets_bind, meets_discard]
  refine (memberType_has t name).imp ?_
  rintro _ _ ⟨rfl, struct, rfl, has⟩
  rw [meets_bind]
  refine (emit_granting hg base (inv_of_furthers hi grows)).imp fun code s₂ ⟨grows', right, codes⟩ => ?_
  refine ⟨.trans grows grows', ?_⟩
  cases code with
  | none => exact nofun
  | some e =>
    obtain ⟨m, hm, code⟩ := codes e rfl
    have denotes : s₂.Denotes p (Frame.current env.frames) base e (.struct struct) :=
      ⟨m, hm, code, grows'.finds.types (found m hm)⟩
    exact List.forall_mem_cons.2 ⟨⟨_, id, .member hn denotes (hi.1.1 ▸ has)⟩, right⟩

/-! ### Elements -/

omit hg in
/-- What has elements is indexed by whole numbers. -/
theorem elementType_has (t index : ValueType) :
    Meets (elementType t index) env s (fun _ => True) fun _ s' =>
      s' = s ∧ (index = .int ∨ index = .uint) ∧ t.element?.isSome := by
  unfold elementType
  refine meets_check fun whole => ?_
  have int : index = .int ∨ index = .uint := by tauto
  cases t.element? with
  | none => trivial
  | some u => exact ⟨rfl, int, rfl⟩

omit hg in
/-- A constant index that passes the check does not lie outside. -/
theorem checkIndex_has (t : ValueType) (i : NodeId) :
    Meets (checkIndex t i) env s (fun _ => True) fun _ s' => s' = s ∧
      ∀ j type values, env.plan.resolve i = .ok j → env.plan.node j = .ok (.const type values) →
        ∀ count ∈ elementCount? t,
          ¬values.headD 0 < 0 ∧ ¬Float.ofNat count.toNat ≤ values.headD 0 := by
  unfold checkIndex
  rw [meets_bind, meets_resolve]
  cases hj : env.plan.resolve i with
  | error f => trivial
  | ok j =>
    dsimp only
    rw [meets_bind, meets_node]
    cases hn : env.plan.node j with
    | error f => trivial
    | ok n =>
      dsimp only
      split
      · next type values count known =>
        refine meets_check fun inside => ⟨rfl, ?_⟩
        rintro _ _ _ ⟨⟩ hn' count' hc
        cases hn.symm.trans hn'
        cases Option.mem_some_iff.1 (known ▸ hc)
        simpa [not_or] using inside
      · next other =>
        refine ⟨rfl, ?_⟩
        rintro _ type values ⟨⟩ hn' count hc
        cases hn.symm.trans hn'
        exact absurd hc (other type values count rfl)

omit hg in
/-- What is known to have elements has at least one. -/
theorem elementCount?_pos {t : ValueType} {count : UInt32} (h : t.element?.isSome)
    (hc : count ∈ elementCount? t) : 0 < count.toNat := by
  cases t with
  | array element n =>
    have nonzero : n ≠ 0 := fun zero => by simp [elementCount?, zero] at hc
    have same : n = count := by simpa [elementCount?, nonzero] using hc
    exact same ▸ Nat.pos_of_ne_zero fun zero => nonzero (UInt32.toNat_inj.1 zero)
  | vector k w =>
    obtain rfl : UInt32.ofNat w.toNat = count := Option.mem_some_iff.1 hc
    cases w <;> decide
  | matrix w =>
    obtain rfl : UInt32.ofNat w.toNat = count := Option.mem_some_iff.1 hc
    cases w <;> decide
  | _ => cases h

omit hg in
/-- The code of a constant of a scalar type is its literal. -/
theorem generator_const {j : NodeId} {kind : ScalarKind} {values : List Float}
    (hj : env.plan.resolve j = .ok j) (hn : env.plan.node j = .ok (.const (.scalar kind) values)) :
    Meets ((generator fuel).emit j) env s (fun _ => True) fun code _ =>
      code = some (.literal kind (values.headD 0)) := by
  cases fuel with
  | zero => trivial
  | succ fuel =>
    refine meets_emitNode (fun _ => trivial) fun m n hm hn' => ?_
    cases hj.symm.trans hm
    cases hn.symm.trans hn'
    show Meets (some <$> buildConstant (.scalar kind) values) env s _ _
    rw [meets_map]
    unfold buildConstant
    rw [meets_bind, meets_discard, meets_ofExcept]
    split
    · refine congrArg some (?_ : ((constantComponents (.scalar kind) values).map
        (Expr.literal kind)).headD default = _)
      cases values with
      | nil => rfl
      | cons v rest =>
        cases rest with
        | nil => rfl
        | cons => rfl
    · trivial

omit hg in
/-- A literal that passed the check is within the bounds that are known. -/
theorem inBounds_of_checked {t : ValueType} {kind : ScalarKind} {values : List Float}
    (hk : kind = .int ∨ kind = .uint) (ht : t.element?.isSome)
    (checked : ∀ count ∈ elementCount? t,
      ¬values.headD 0 < 0 ∧ ¬Float.ofNat count.toNat ≤ values.headD 0) :
    (Expr.literal kind (values.headD 0)).InBounds (elementCount? t) values := by
  have read : kind.numeral? (Dialect.literal kind (values.headD 0)) = _ :=
    numeral?_literal (by rcases hk with rfl | rfl <;> decide) _
  cases known : elementCount? t with
  | some count =>
    have small : count.toNat < 2 ^ 53 := count.toNat_lt.trans (by decide)
    obtain ⟨low, below⟩ := checked count known
    obtain ⟨k, number, hlt⟩ := literalNumber_within hk (elementCount?_pos ht known) small low below
    refine ⟨kind, hk, rfl, k, read.trans (congrArg some number), ?_, ?_⟩
    · exact iff_of_false (Int.natCast_nonneg k).not_gt fun h => nomatch h.1
    · rintro _ ⟨⟩
      exact_mod_cast hlt
  | none =>
    obtain ⟨z, whole⟩ : ∃ z : ℤ, literalNumber kind (values.headD 0) = z := by
      rcases hk with rfl | rfl
      · exact ⟨_, rfl⟩
      · exact ⟨_, (Int.cast_natCast _).symm⟩
    refine ⟨kind, hk, rfl, z, read.trans (congrArg some whole), ?_, nofun⟩
    rw [← Int.cast_lt_zero (R := ℚ), ← whole]
    rcases hk with rfl | rfl
    · simp [literalNumber_int_neg_iff]
    · exact iff_of_false (Nat.cast_nonneg _).not_gt fun h => nomatch h.2.1

/-- The value of a constant of a scalar type is its literal. -/
theorem value_const {i j : NodeId} {kind : ScalarKind} {values : List Float}
    (hj : p.resolve i = .ok j) (hn : p.node j = .ok (.const (.scalar kind) values))
    (found : s.types.get? (j, Frame.current env.frames) = some (.scalar kind))
    (hi : (Law.granting p).inv env s) :
    Meets ((generator fuel).value i (.scalar kind)) env s (fun _ => True) fun x _ =>
      x = .literal kind (values.headD 0) := by
  obtain ⟨⟨rfl, -⟩, -⟩ := id hi
  have hjj := Plan.resolve_of_resolve hj
  unfold Generator.value
  rw [meets_bind, meets_resolve, hj]
  dsimp only
  rw [meets_located, meets_bind]
  refine ((emit_granting hg j hi).and (generator_const hjj hn)).imp ?_
  rintro _ s₁ ⟨⟨grows, -, -⟩, rfl⟩
  rw [meets_bind]
  refine (typeOf_granting j (inv_of_furthers hi grows)).imp fun t s₂ ⟨grows', found'⟩ => ?_
  cases (grows'.finds.types (grows.finds.types found)).symm.trans (found' j hjj)
  refine meets_check fun _ => ?_
  rw [Expr.coerce_self]
  rfl

/-- An element is taken at an index which is within the bounds, if it is constant. -/
theorem element_granting (base : Option Expr) {source i : NodeId}
    (hn : p.node id = .ok (.index source i)) (hi : (Law.granting p).inv env s)
    (right : ∀ x ∈ Expr.optionAccesses base, s.Grants p x)
    (codes : ∀ e ∈ base, ∃ m, p.resolve source = .ok m ∧
      s.Codes p (Frame.current env.frames) m e) :
    Meets (buildElement (generator fuel) base source i) env s (fun _ => True) fun e s' =>
      s.Furthers p s' ∧ (∀ x ∈ Expr.optionAccesses e, s'.Grants p x) ∧
        (∀ x ∈ e, s'.Fulfils p (Frame.current env.frames) id x) ∧
          ∃ x t, e = base.map (Expr.index · x) ∧ p.Bounded t i x ∧ ∀ m, p.resolve source = .ok m →
            s'.types.get? (m, Frame.current env.frames) = some t := by
  unfold buildElement
  rw [meets_bind]
  refine (typeOf_granting source hi).imp fun t s₁ ⟨grows₁, found⟩ => ?_
  have hi₁ := inv_of_furthers hi grows₁
  rw [meets_bind]
  refine (typeOf_granting i hi₁).imp fun index s₂ ⟨grows₂, indexed⟩ => ?_
  have hi₂ := inv_of_furthers hi₁ grows₂
  rw [meets_bind, meets_discard]
  refine (elementType_has t index).imp ?_
  rintro _ s₂ ⟨rfl, int, elements⟩
  rw [meets_bind]
  refine (checkIndex_has t i).imp ?_
  rintro _ s₂ ⟨rfl, checked⟩
  rw [hi.1.1] at checked
  have const : Meets ((generator fuel).value i index) env s₂ (fun _ => True) fun x _ =>
      p.Bounded t i x := by
    by_cases h : ∃ j type values, p.resolve i = .ok j ∧ p.node j = .ok (.const type values)
    · obtain ⟨j, type, values, hj, hconst⟩ := h
      obtain rfl : index = type := hi₂.2.1.suits (indexed j hj) hconst
      obtain ⟨kind, hk, rfl⟩ : ∃ kind, (kind = .int ∨ kind = .uint) ∧ index = .scalar kind := by
        rcases int with rfl | rfl
        · exact ⟨.int, .inl rfl, rfl⟩
        · exact ⟨.uint, .inr rfl, rfl⟩
      refine (value_const hg hj hconst (indexed j hj) hi₂).imp ?_
      rintro _ _ rfl j' type' values' hj' hconst'
      cases hj.symm.trans hj'
      cases hconst.symm.trans hconst'
      exact inBounds_of_checked hk elements (checked j _ values hj hconst)
    · exact (meets_true _).imp fun _ _ _ j type values hj hconst =>
        absurd ⟨j, type, values, hj, hconst⟩ h
  rw [meets_bind]
  refine ((value_granting hg i index hi₂).and const).imp ?_
  rintro x s₃ ⟨⟨grows₃, inner, supplied⟩, bounded⟩
  have later : s.Furthers p s₃ := .trans grows₁ (.trans grows₂ grows₃)
  have typed : ∀ m, p.resolve source = .ok m →
      s₃.types.get? (m, Frame.current env.frames) = some t :=
    fun m hm => grows₃.finds.types (grows₂.finds.types (found m hm))
  have element : ∀ e ∈ base.map (Expr.index · x),
      s₃.Fulfils p (Frame.current env.frames) id e := by
    intro e he
    obtain ⟨b, hb, rfl⟩ := Option.map_eq_some_iff.1 he
    obtain ⟨m, hm, code⟩ := codes b hb
    exact .index hn ⟨m, hm, code.mono later.finds.types later.visits, typed m hm⟩ supplied int bounded
  refine ⟨later, ?_, element, x, t, rfl, bounded, typed⟩
  cases base with
  | none => exact nofun
  | some e =>
    refine List.forall_mem_cons.2 ⟨⟨_, id, element _ rfl⟩, ?_⟩
    exact List.forall_mem_append.2 ⟨fun x hx => later.grants (right x hx), inner⟩

/-- What an index node gives is right as code of that node. -/
theorem index_granting {base i : NodeId} (hn : p.node id = .ok (.index base i))
    (hi : (Law.granting p).inv env s) :
    Meets (buildIndex (generator fuel) base i) env s (fun _ => True) fun e s' =>
      s.Furthers p s' ∧ (∀ x ∈ Expr.optionAccesses e, s'.Grants p x) ∧
        ∀ x ∈ e, s'.Fulfils p (Frame.current env.frames) id x := by
  unfold buildIndex
  rw [meets_bind]
  refine (emit_granting hg base hi).imp fun code s₁ ⟨grows, right, codes⟩ => ?_
  refine (element_granting hg _ hn (inv_of_furthers hi grows) right codes).imp fun e s₂ hr => ?_
  exact ⟨.trans grows hr.1, hr.2.1, hr.2.2.1⟩

/-! ### Places -/

/-- A place of a node. -/
theorem place_granting (c : NodeId) (hi : (Law.granting p).inv env s) :
    Meets ((generator fuel).place c) env s (fun _ => True) fun r s' => s.Furthers p s' ∧
      (∀ x ∈ r.1.accesses, s'.Grants p x) ∧
        s'.Denotes p (Frame.current env.frames) c r.1 r.2 := by
  refine (hg.place c s hi nofun).imp fun r s' hr => ⟨hr.1, ?_, ?_⟩
  · exact holds_accesses.1 fun x hx => hr.2 x (List.mem_append_left _ hx)
  · exact hr.2 _ (List.mem_append_right _ (List.mem_singleton_self _))

/-- What an index of a place is applied to is code of its node. -/
theorem placeBase_granting (base : NodeId) (hi : (Law.granting p).inv env s) :
    Meets (placeBase (generator fuel) base) env s (fun _ => True) fun e s' => s.Furthers p s' ∧
      (∀ x ∈ e.accesses, s'.Grants p x) ∧
        ∃ m, p.resolve base = .ok m ∧ s'.Codes p (Frame.current env.frames) m e := by
  unfold placeBase
  rw [meets_bind, meets_resolve, hi.1.1]
  cases hm : p.resolve base with
  | error f => trivial
  | ok m =>
    dsimp only
    rw [meets_bind, meets_node, hi.1.1]
    cases hn : p.node m with
    | error f => trivial
    | ok n =>
      dsimp only
      split
      · next name element count access =>
        rw [meets_bind]
        refine (granting_plain.registerStorage name element count access hi).imp fun b s₁ hr => ?_
        rw [meets_bind]
        have hi₁ := inv_of_furthers hi hr.1
        refine ((granting_plain.useStorage name b hi₁ hr.2).and
          (useStorage_reference name b env s₁)).imp ?_
        rintro _ s₂ ⟨grows, rfl⟩
        refine meets_check fun _ => ?_
        exact ⟨.trans hr.1 grows, nofun, m, rfl, .buffer b.name hn⟩
      · rw [meets_bind]
        refine (place_granting hg base hi).imp fun r s₁ hr => ⟨hr.1, hr.2.1, ?_⟩
        obtain ⟨m', hm', code, -⟩ := hr.2.2
        exact ⟨m', hm.symm.trans hm', code⟩

/-- The place of a node is code of the node. -/
theorem placeOf_granting {n : Node} {type : ValueType} (hm : p.resolve id = .ok id)
    (hn : p.node id = .ok n) (hi : (Law.granting p).inv env s)
    (found : s.types.get? (id, Frame.current env.frames) = some type) :
    Meets (placeOf (generator fuel) id type n) env s (fun _ => True) fun e s' =>
      s.Furthers p s' ∧ (∀ x ∈ e.accesses, s'.Grants p x) ∧
        s'.Codes p (Frame.current env.frames) id e := by
  have own : Meets (ownPlace (generator fuel) id type) env s (fun _ => True) fun e s' =>
      s.Furthers p s' ∧ (∀ x ∈ e.accesses, s'.Grants p x) ∧
        s'.Codes p (Frame.current env.frames) id e := by
    unfold ownPlace
    rw [meets_bind]
    refine (emit_granting hg id hi).imp fun code s₁ ⟨grows, right, codes⟩ => ?_
    cases code with
    | none => trivial
    | some e =>
      obtain ⟨_, same, code⟩ := codes e rfl
      cases hm.symm.trans same
      exact ⟨grows, right, code⟩
  unfold placeOf
  split
  · trivial
  · exact own
  · exact own
  · next base name =>
    rw [meets_bind]
    refine (place_granting hg base hi).imp fun r s₁ ⟨grows, right, denotes⟩ => ?_
    have ⟨b, hb, code, typed⟩ := denotes
    -- the type of the member came with that of the struct
    obtain ⟨struct, found', has⟩ :=
      (inv_of_furthers hi grows).2.1.struct (grows.finds.types found) hn hb
    have same : r.2 = .struct struct := Option.some.inj (typed.symm.trans found')
    refine ⟨grows, List.forall_mem_cons.2 ⟨⟨_, id, .member hn (same ▸ denotes) has⟩, right⟩, ?_⟩
    exact .member hn hb code found' has
  · next base i =>
    rw [meets_bind]
    refine (placeBase_granting hg base hi).imp fun e s₁ ⟨grows, right, m, hm', code⟩ => ?_
    rw [meets_bind]
    refine (element_granting hg (some e) hn (inv_of_furthers hi grows) right ?_).imp ?_
    · rintro _ ⟨⟩
      exact ⟨m, hm', code⟩
    · rintro _ s₂ ⟨grows', right', -, x, t, rfl, bounded, typed⟩
      exact ⟨.trans grows grows', right',
        .index hn hm' (code.mono grows'.finds.types grows'.visits) (typed m hm') bounded⟩
  · next base components =>
    have rest : Meets (swizzlePlace (generator fuel) base components) env s (fun _ => True)
        fun e s' => s.Furthers p s' ∧ (∀ x ∈ e.accesses, s'.Grants p x) ∧
          s'.Codes p (Frame.current env.frames) id e := by
      unfold swizzlePlace
      rw [meets_bind]
      refine (place_granting hg base hi).imp fun r s₁ ⟨grows, right, b, hb, code, _⟩ => ?_
      rw [meets_bind, meets_ofExcept]
      split
      · next cs _ => exact ⟨grows, right, .split cs hn hb code⟩
      · trivial
    show Meets (dialect >>= _) env s _ _
    rw [meets_bind, meets_dialect]
    exact (meets_ite _ _ _).2 ⟨fun _ => trivial, fun _ => rest⟩
  · trivial

/-! ### Varyings -/

/-- The vertex program assigns the value of its source to a varying. -/
theorem assignVarying_granting (v : VaryingEntry) : (Law.granting p).Keeps env (do
    let e ← (generator fuel).value v.source v.type
    addStatement (.assign (.reference (.varying .vertex v.name)) e)
    modifyHere fun b => { b with varyings := appendNew b.varyings id }) := by
  have made : (CodeSupply.accesses p).Makes env [] (do
      let e ← (generator fuel).value v.source v.type
      addStatement (.assign (.reference (.varying .vertex v.name)) e)
      modifyHere fun b => { b with varyings := appendNew b.varyings id }) fun _ => [] := by
    refine .bind (accesses_composed.value hg v.source v.type) fun e =>
      .bind (accesses_composed.add (.append ?_ .nil)) fun _ =>
        .keep (granting_modifyHere fun _ => rfl)
    exact .append (accesses_composed.atom rfl rfl rfl) (.of_subset (List.subset_append_left _ _))
  exact made.keeps fun _ => trivial

theorem varying_granting {source : NodeId} {name : Option String} {interpolation : Interpolation}
    {sampling : Option Sampling} (hi : (Law.granting p).inv env s) :
    Meets (buildVarying (generator fuel) id source name interpolation sampling) env s (fun _ => True)
      fun e s' => s.Furthers p s' ∧ ∀ x ∈ e.accesses, s'.Grants p x := by
  have mark : (Law.granting p).Keeps env
      (modifyHere fun b => { b with varyings := appendNew b.varyings id }) :=
    granting_modifyHere fun _ => rfl
  unfold buildVarying
  rw [meets_bind, meets_stage]
  refine meets_check fun _ => ?_
  rw [meets_bind]
  refine (registerVarying_granting hi).imp fun v s₁ ⟨grows, location, entered⟩ => ?_
  have hi₁ := inv_of_furthers hi grows
  have write : Meets (writeVarying (generator fuel) id v) env s₁ (fun _ => True) fun _ s₂ =>
      s₁.Furthers p s₂ := by
    refine (meets_ite _ _ _).2 ⟨fun _ => .refl s₁, fun _ => ?_⟩
    show Meets (inStage .vertex _ >>= _) env s₁ _ _
    rw [meets_bind]
    have assign : (Law.granting p).Keeps env (inStage .vertex do
        let e ← (generator fuel).value v.source v.type
        addStatement (.assign (.reference (.varying .vertex v.name)) e)
        modifyHere fun b => { b with varyings := appendNew b.varyings id }) :=
      (assignVarying_granting hg v).inStage (fun _ => granting_within .vertex) (fun _ _ hr => hr)
        fun _ he => he
    refine (assign s₁ hi₁).imp fun _ s₂ grows₂ => ?_
    -- the entry is still the one of the table, but for its location
    obtain ⟨location', entered'⟩ := grows₂.finds.varyings entered
    have located : Meets (locateVarying id v) env s₂ (fun _ => True) fun _ s₃ => s₂.Furthers p s₃ :=
      locateVarying_granting entered'
    exact located.imp fun _ _ grows₃ => .trans grows₂ grows₃
  rw [meets_bind]
  refine write.imp fun _ s₂ grows₂ => ?_
  refine (meets_ite _ _ _).2 ⟨fun _ => ?_, fun _ => ⟨.trans grows grows₂, nofun⟩⟩
  show Meets (modifyHere _ >>= _) env s₂ _ _
  rw [meets_bind]
  refine (mark s₂ (inv_of_furthers hi₁ grows₂)).imp fun _ s₃ grows₃ => ?_
  exact ⟨.trans grows (.trans grows₂ grows₃), nofun⟩

end

/-! ### Generation -/

/-- What a step makes is right when its expressions are. -/
theorem makes_of_granting {step : Build Expr}
    (h : ∀ {s}, (Law.granting p).inv env s → Meets step env s (fun _ => True) fun e s' =>
      s.Furthers p s' ∧ ∀ x ∈ e.accesses, s'.Grants p x) :
    (CodeSupply.accesses p).Makes env [] step (CodeSupply.accesses p).items :=
  fun _ hi _ => (h hi).imp fun _ _ hr => ⟨hr.1, holds_accesses.2 hr.2⟩

theorem makes_of_granting? {step : Build (Option Expr)}
    (h : ∀ {s}, (Law.granting p).inv env s → Meets step env s (fun _ => True) fun e s' =>
      s.Furthers p s' ∧ ∀ x ∈ Expr.optionAccesses e, s'.Grants p x) :
    (CodeSupply.accesses p).Makes env [] step (CodeSupply.accesses p).optionItems :=
  fun _ hi _ => (h hi).imp fun e _ hr =>
    ⟨hr.1, optionItems_accesses (p := p) e ▸ holds_accesses.2 hr.2⟩

/-- The place of a node is code of it, of the type that was found for it. -/
theorem buildPlace_granting (hg : (CodeSupply.accesses p).Serves (generator fuel)) :
    (CodeSupply.accesses p).Makes env [] (buildPlace (generator fuel) id)
      ((CodeSupply.accesses p).placed env id) := by
  intro s hi _
  unfold buildPlace
  rw [meets_bind, meets_resolve, hi.1.1]
  cases hm : p.resolve id with
  | error f => trivial
  | ok m =>
    have hmm := Plan.resolve_of_resolve hm
    dsimp only
    rw [meets_located, meets_bind, meets_node, hi.1.1]
    cases hn : p.node m with
    | error f => trivial
    | ok n =>
      dsimp only
      rw [meets_bind]
      refine (typeOf_granting m hi).imp fun type s₁ ⟨grows, found⟩ => ?_
      rw [meets_bind]
      refine (placeOf_granting hg hmm hn (inv_of_furthers hi grows) (found m hmm)).imp ?_
      rintro e s₂ ⟨grows', right, code⟩
      refine ⟨.trans grows grows', List.forall_mem_append.2 ⟨holds_accesses.2 right, ?_⟩⟩
      refine List.forall_mem_singleton.2 ⟨m, hm, code, grows'.finds.types (found m hmm)⟩

/-- What has to hold of a visit holds when the node was generated. -/
theorem visited_granting {n : Node} (hg : (CodeSupply.accesses p).Serves (generator fuel))
    (hn : env.plan.node id = .ok n) (hv : (CodeSupply.accesses p).visited env id n ≠ fun _ => []) :
    (CodeSupply.accesses p).Makes env [] (generateNode (generator fuel) id n)
      ((CodeSupply.accesses p).visited env id n) := by
  intro s hi _
  rw [hi.1.1] at hn
  cases n with
  | index base i =>
    refine (index_granting hg hn hi).imp fun code s' hr => ⟨hr.1, ?_⟩
    exact List.forall_mem_singleton.2 hr.2.2
  | assign target value op =>
    show Meets (buildAssign (generator fuel) target value op >>= _) env s _ _
    unfold buildAssign
    rw [meets_bind, meets_bind]
    refine (place_granting hg target hi).imp fun r s₁ ⟨grows, right, denotes⟩ => ?_
    have written : (CodeSupply.accesses p).Makes env ((CodeSupply.accesses p).items r.1 ++ []) _
        fun _ => [] := accesses_composed.write hg r.1 r.2 value op
    refine (written s₁ (inv_of_furthers hi grows) ?_).imp fun _ s₂ hr => ⟨?_, ?_⟩
    · exact (List.append_nil _).symm ▸ holds_accesses.2 right
    · exact .trans grows hr.1
    · exact List.forall_mem_singleton.2 ⟨_, _, denotes.mono hr.1.finds.types hr.1.visits⟩
  | _ => exact absurd rfl hv

/-- A visit is logged of which that is known. -/
theorem visit_granting {n : Node} {s₀ : BuildState} {code : Option Expr}
    (hi : (Law.granting p).inv env s) (hn : env.plan.node id = .ok n)
    (known : ∀ x ∈ (CodeSupply.accesses p).visited env id n code, x.Holds p s) :
    s.Furthers p { s with visits := visitAt env s₀ id code :: s.visits } := by
  refine .visit fun n' hn' => ?_
  cases (hi.1.1 ▸ hn).symm.trans hn'
  cases n with
  | index base i => exact known _ (List.mem_singleton_self _)
  | assign target value op => exact known _ (List.mem_singleton_self _)
  | _ => trivial

theorem granting_sustained : (CodeSupply.accesses p).Sustained where
  toComposed := accesses_composed
  registerFunction := registerFunction_granting
  useFunction := useFunction_granting
  claimLocal := claimLocal_granting
  releaseLocal := releaseLocal_granting
  claimTemp := claimTemp_granting
  bindName := bindName_granting
  visited hg _ hn := visited_granting hg hn
  visit hi hn known := visit_granting hi hn known
  inside hi hn := granting_inside hi (hi.1.1 ▸ hn)
  lent := granting_lent
  scope _ _ := granting_scope
  varying hg _ := makes_of_granting (varying_granting hg)
  join hg hm hn := makes_of_granting fun hi => join_granting hg (hi.1.1 ▸ hm) (hi.1.1 ▸ hn) hi
  struct hg hm hn := makes_of_granting fun hi => struct_granting hg (hi.1.1 ▸ hm) (hi.1.1 ▸ hn) hi
  member hg hn := makes_of_granting? fun hi => member_granting hg (hi.1.1 ▸ hn) hi
  index hg hn := makes_of_granting? fun hi =>
    (index_granting hg (hi.1.1 ▸ hn) hi).imp fun _ _ hr => ⟨hr.1, hr.2.1⟩
  place := buildPlace_granting

/-- All accesses in the code that a run collects are right. -/
theorem run_granted {rs : List (Stage × NodeId)} (h : run p rs = .ok s) : s.Granted p := by
  obtain ⟨s₀, hanalyze, hgenerate⟩ := of_run h
  have surveys := analyze_surveys hanalyze
  have unvisited : s₀.visits = [] := surveys.visits
  have granted : s₀.Granted p := by
    refine ⟨fun stage e he => ?_, fun v hv => ?_⟩
    · rw [StageBuild.accesses_of_body (congrFun surveys.bodies stage)] at he
      cases stage <;> cases he
    · rw [unvisited] at hv
      cases hv
  have coherent : s₀.Coherent p := analyze_coherent hanalyze
  have start : ∀ r ∈ rs, (Law.granting p).inv (Env.root p (rs.map Prod.fst) r.1) s₀ :=
    fun _ _ => ⟨⟨rfl, rfl⟩, coherent, ⟨[], trivial⟩, granted⟩
  have walk : ∀ r ∈ rs, (Law.granting p).Keeps (Env.root p (rs.map Prod.fst) r.1)
      (generateStage r.2) :=
    fun r _ => (granting_sustained.generateStage r.2).keeps fun _ => trivial
  have all := Law.Keeps.atRoots start walk
  rw [hgenerate] at all
  exact all.granted granted

end Build

variable {g : Graph} {request : BuildRequest} {options : BuildOptions} {host : Host} {a : Artifact}

/-- In the programs of a build struct values have an argument for each member, in order and of the
type of the member; members are those that the struct has; and a constant index is a literal within
what is known of the number of elements. So it is when a node gives an element, and when something is
assigned to a place. -/
theorem accesses_right (h : build g request options host = .ok a) : ∃ p s,
    Plan.make g options (request.roots.map Prod.snd) host = .ok p ∧
      Build.run p request.roots = .ok s ∧
        (∀ prog ∈ a.programs, ∀ e ∈ prog.accesses, s.Grants p e) ∧
          ∀ v ∈ s.visits, ∀ n, p.node v.key.node = .ok n →
            s.Heeds p (Frame.current v.frames) v.key.node v.code n := by
  obtain ⟨p, s, hmake, hrun, hartifact⟩ := of_build h
  have granted := run_granted hrun
  refine ⟨p, s, hmake, hrun, fun prog hprog e he => ?_, granted.visits⟩
  obtain ⟨stage, -, hstage⟩ := stageProgram_of_artifact hartifact hprog
  have presents := presents_of_stageProgram hstage
  refine granted.code stage e ?_
  unfold Program.accesses at he
  rw [presents.locals, presents.body, presents.output] at he
  unfold StageBuild.accesses StageBuild.collect
  simp only [List.mem_append] at he ⊢
  exact he.imp_right fun he => he.imp_left .inr

/-- A lamp of two members, of which one component of the color is shown. -/
def lamp : Graph := .ofNodes
  [.structType "Lamp" [⟨"color", .vec3⟩, ⟨"range", .float⟩], .const .float [1],
    .struct ⟨0⟩ [⟨1⟩, ⟨1⟩], .member ⟨2⟩ "color", .const .int [2], .index ⟨3⟩ ⟨4⟩]

/-- The program holds the lamp, the member and the component, and they are right. -/
theorem lamp_right :
    ∃ a, build lamp ⟨none, some ⟨5⟩, none⟩ (.ofDialect .glsl) = .ok a ∧
      ∃ p s, Plan.make lamp (.ofDialect .glsl) [⟨5⟩] = .ok p ∧
        Build.run p [(.fragment, ⟨5⟩)] = .ok s ∧
          ∃ prog ∈ a.programs, prog.accesses.length = 3 ∧ ∀ e ∈ prog.accesses, s.Grants p e := by
  have made : achieves (fun a => a.programs.any fun prog => prog.accesses.length = 3)
      (build lamp ⟨none, some ⟨5⟩, none⟩ (.ofDialect .glsl)) = true := by
    decide +kernel
  obtain ⟨a, ha, hmade⟩ := of_achieves made
  obtain ⟨prog, hprog, three⟩ := List.any_eq_true.1 hmade
  obtain ⟨p, s, hmake, hrun, right, -⟩ := accesses_right ha
  exact ⟨a, ha, p, s, hmake, hrun, prog, hprog, of_decide_eq_true three, right prog hprog⟩

/-- An element of a storage buffer without a length, at an index below zero. -/
def probing : Graph := .ofNodes
  [.storageBuffer "data" .float none .read, .const .int [-1], .index ⟨0⟩ ⟨1⟩]

/-- The number of a literal index. -/
def Expr.literalIndex? : Expr → Option Float
  | .index _ (.literal .int v) => some v
  | _ => none

theorem Expr.of_literalIndex? {e : Expr} {v : Float} (h : e.literalIndex? = some v) :
    ∃ base, e = .index base (.literal .int v) := by
  unfold literalIndex? at h
  split at h
  · next base _ =>
    cases h
    exact ⟨base, rfl⟩
  · cases h

/-- The literal of a constant index is negative, and the build is not refused. -/
theorem probing_below_zero :
    ∃ a, build probing ⟨none, some ⟨2⟩, none⟩ (.ofDialect .glsl) = .ok a ∧
      ∃ prog ∈ a.programs, ∃ base v, Expr.index base (.literal .int v) ∈ prog.accesses ∧
        ∃ q < 0, ScalarKind.int.numeral? (Dialect.literal .int v) = some q := by
  have made : achieves (fun a => a.programs.any fun prog => prog.accesses.any fun e =>
        e.literalIndex?.any fun v => v ≤ -1)
      (build probing ⟨none, some ⟨2⟩, none⟩ (.ofDialect .glsl)) = true := by
    decide +kernel
  obtain ⟨a, ha, hmade⟩ := of_achieves made
  obtain ⟨prog, hprog, hmade⟩ := List.any_eq_true.1 hmade
  obtain ⟨e, he, hmade⟩ := List.any_eq_true.1 hmade
  obtain ⟨v, hv, below⟩ := (Option.any_eq_true _ _).1 hmade
  obtain ⟨base, rfl⟩ := Expr.of_literalIndex? hv
  exact ⟨a, ha, prog, hprog, base, v, he, _,
    (literalNumber_int_neg_iff v).2 (of_decide_eq_true below), numeral?_literal (by decide) v⟩

end ShaderGraph
