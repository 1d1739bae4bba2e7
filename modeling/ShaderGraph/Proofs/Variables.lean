import ShaderGraph.Proofs.Collected
import ShaderGraph.Proofs.Generation

/-!
# Variables

Where a variable node is met, either an open declaration is found or the variable is declared. The
names that the code of a stage declares for a key are those of the visits that found none
(`BuildState.Accounts`). The name that a key is bound to was declared by such a visit before
(`BuildState.Ledger`).
-/

namespace ShaderGraph

/-! ### Declarations -/

namespace Statement

mutual

/-- The names that a statement declares for a key. -/
def declared (k : CacheKey) : Statement → List String
  | declare name _ _ _ owner => if owner = some k then [name] else []
  | branch _ thenBody elseBody => declaredIn k thenBody ++ declaredElse k elseBody
  | loop _ _ _ _ _ _ body => declaredIn k body
  | assign .. | update .. | call .. | jump _ => []

/-- The names that the statements of a block declare for a key. -/
def declaredIn (k : CacheKey) : List Statement → List String
  | [] => []
  | s :: rest => declared k s ++ declaredIn k rest

/-- The names that the second branch declares for a key. -/
def declaredElse (k : CacheKey) : Option (List Statement) → List String
  | none => []
  | some body => declaredIn k body

end

variable {k : CacheKey}

theorem declaredIn_append (ss ss' : List Statement) :
    declaredIn k (ss ++ ss') = declaredIn k ss ++ declaredIn k ss' := by
  induction ss with
  | nil => rfl
  | cons s rest ih => rw [List.cons_append, declaredIn, declaredIn, ih, List.append_assoc]

/-- A statement that no variable owns declares what its blocks declare. -/
theorem declared_of_owner {st : Statement} (h : st.owner? = none) :
    st.declared k = declaredIn k st.blocks := by
  cases st with
  | declare name type init m owner =>
    cases h
    rfl
  | branch c t e =>
    show _ = declaredIn k (t ++ e.getD [])
    rw [declaredIn_append, declared]
    cases e <;> rfl
  | _ => rfl

end Statement

namespace StageBuild

variable {b : StageBuild} {k : CacheKey} {st : Statement} {x : String}

/-- The names that the open blocks of a stage declare for a key. -/
def declared (b : StageBuild) (k : CacheKey) : List String :=
  b.inner.flatMap (fun block => Statement.declaredIn k block.statements) ++
    Statement.declaredIn k b.outer.statements

theorem isOpen_iff {id : BlockId} : b.isOpen id = true ↔ id ∈ b.openBlocks := by
  unfold isOpen openBlocks
  rw [Bool.or_eq_true, decide_eq_true_eq, List.any_eq_true, List.mem_append, List.mem_map,
    List.mem_singleton, or_comm, @eq_comm _ id]
  simp only [decide_eq_true_eq]

theorem count_declared_add :
    ((b.add st).declared k).count x = (b.declared k).count x + (st.declared k).count x := by
  have last : ∀ ss, (Statement.declaredIn k (ss ++ [st])).count x =
      (Statement.declaredIn k ss).count x + (st.declared k).count x := by
    intro ss
    rw [Statement.declaredIn_append, List.count_append, Statement.declaredIn,
      Statement.declaredIn, List.append_nil]
  unfold declared add
  cases hb : b.inner with
  | nil => simp only [List.flatMap_nil, List.nil_append, last]
  | cons block rest =>
    simp only [List.flatMap_cons, List.count_append, last]
    omega

theorem declared_openBlock : b.openBlock.declared k = b.declared k := by
  unfold declared openBlock
  rw [List.flatMap_cons, Statement.declaredIn, List.nil_append]

theorem count_declared_closeBlock :
    (b.closeBlock.declared k).count x + (Statement.declaredIn k b.innerStatements).count x =
      (b.declared k).count x := by
  unfold declared closeBlock innerStatements
  cases b.inner with
  | nil => rw [Statement.declaredIn]; rfl
  | cons block rest =>
    simp only [List.tail_cons, List.flatMap_cons, List.count_append]
    omega

end StageBuild

/-! ### Visits -/

/-- The name of a local. -/
def Expr.localName? : Expr → Option String
  | reference (.local name) => some name
  | _ => none

theorem Expr.eq_of_localName? {code : Option Expr} {x : String}
    (h : code.bind Expr.localName? = some x) : code = some (Build.localName x) := by
  obtain ⟨e, rfl, he⟩ := Option.bind_eq_some_iff.1 h
  unfold Expr.localName? at he
  split at he
  · cases he
    rfl
  · cases he

namespace Visit

/-- Whether the declaration of the name that the node is bound to is open. -/
def finds (v : Visit) : Bool := v.bound.any fun b => v.blocks.contains b.block

/-- The name that a visit of a key declares. -/
def declared? (k : CacheKey) (v : Visit) : Option String :=
  if v.key = k ∧ v.finds = false then v.code.bind Expr.localName? else none

theorem declared?_of_ne {k : CacheKey} {v : Visit} (h : v.key ≠ k) : v.declared? k = none :=
  if_neg fun hd => h hd.1

theorem declared?_of_finds {k : CacheKey} {v : Visit} (h : v.finds = true) :
    v.declared? k = none := by
  refine if_neg fun hd => ?_
  rw [h] at hd
  cases hd.2

/-- A visit that finds no declaration declares the name that it gives. -/
theorem declared?_of_missed {k : CacheKey} {v : Visit} {x : String} (hk : v.key = k)
    (h : v.finds = false) (hc : v.code = some (Build.localName x)) : v.declared? k = some x := by
  unfold declared?
  rw [if_pos ⟨hk, h⟩, hc]
  rfl

/-- A visit of a variable that was logged after some others gives the name that one of these
declared, or declares one itself. -/
structure Answers (k : CacheKey) (older : List Visit) (v : Visit) : Prop where
  bound : ∀ b, v.bound = some b → ∃ w ∈ older, w.declared? k = some b.name
  found : v.finds = true → ∃ b, v.bound = some b ∧ v.code = some (Build.localName b.name)
  missed : v.finds = false → ∃ x, v.code = some (Build.localName x)

/-- All visits of a key in a log answer as those of a variable do. -/
def Told (k : CacheKey) : List Visit → Prop
  | [] => True
  | v :: older => (v.key = k → v.Answers k older) ∧ Told k older

end Visit

namespace BuildState

variable {p : Plan} {k : CacheKey} {t : Stage} {s s' s'' : BuildState} {ns ns' : List String}

/-- The names that the visits of a key declared. -/
def missed (s : BuildState) (k : CacheKey) : List String := s.visits.filterMap (Visit.declared? k)

/-- What holds of the visits of a variable throughout generation. -/
structure Ledger (k : CacheKey) (s : BuildState) : Prop where
  bound : ∀ b, s.cache.bound? k = some b →
    b.frame = none ∧ ∃ w ∈ s.visits, w.declared? k = some b.name
  told : Visit.Told k s.visits

/-- A visit is logged; if it is one of the variable, it answers. -/
theorem Ledger.log {v : Visit} (h : s.Ledger k) (hv : v.key = k → v.Answers k s.visits) :
    BuildState.Ledger k { s with visits := v :: s.visits } where
  bound b hb := by
    obtain ⟨hf, w, hw, hd⟩ := h.bound b hb
    exact ⟨hf, w, .tail _ hw, hd⟩
  told := ⟨hv, h.told⟩

/-- Between two states the stage `t` declares the names that the visits of a key declare, unless
they are in the statements of a block that belongs to no open one; these declare `ns`. -/
structure Accounts (p : Plan) (k : CacheKey) (t : Stage) (ns : List String)
    (s s' : BuildState) : Prop where
  advances : s.Advances p s'
  blocks : ∀ u, (s'.stages.get u).openBlocks = (s.stages.get u).openBlocks
  visits : s.visits <:+ s'.visits
  ledger : s.Ledger k → s'.Ledger k
  balance : ∀ x, ((s'.stages.get t).declared k).count x + ns.count x + (s.missed k).count x =
    ((s.stages.get t).declared k).count x + (s'.missed k).count x

namespace Accounts

theorem refl (s : BuildState) : s.Accounts p k t [] s :=
  ⟨.refl s, fun _ => rfl, List.suffix_rfl, id, fun _ => rfl⟩

theorem trans (h : s.Accounts p k t ns s') (h' : s'.Accounts p k t ns' s'') :
    s.Accounts p k t (ns ++ ns') s'' where
  advances := h.advances.trans h'.advances
  blocks u := (h'.blocks u).trans (h.blocks u)
  visits := h.visits.trans h'.visits
  ledger := h'.ledger ∘ h.ledger
  balance x := by
    have := h.balance x
    have := h'.balance x
    rw [List.count_append]
    omega

/-- A change that neither visits nor states anything and does not bind the key. -/
theorem of_same (ha : s.Advances p s') (hv : s'.visits = s.visits)
    (hb : s'.cache.bound? k = s.cache.bound? k)
    (hi : ∀ u, (s'.stages.get u).inner = (s.stages.get u).inner)
    (ho : ∀ u, (s'.stages.get u).outer = (s.stages.get u).outer) : s.Accounts p k t [] s' where
  advances := ha
  blocks u := by
    unfold StageBuild.openBlocks
    rw [hi, ho]
  visits := hv ▸ List.suffix_rfl
  ledger hl := by
    refine ⟨?_, hv ▸ hl.told⟩
    rw [hb, hv]
    exact hl.bound
  balance x := by
    unfold StageBuild.declared missed
    rw [hi, ho, hv]
    rfl

theorem of_quiet (ha : s.Advances p s') (hq : s.Quiet s') : s.Accounts p k t [] s' :=
  of_same ha hq.visits (hq.bound k) hq.inner hq.outer

theorem of_still (h : s'.still = s.still) : s.Accounts p k t [] s' :=
  of_quiet (.of_still h) (.of_still h)

theorem of_entering (h : (Law.enteringVarying p).rel [] s s') : s.Accounts p k t [] s' :=
  of_quiet (.of_entering h) (.of_entering h)

/-- A statement is added, with the names that it declares. -/
theorem add {e : Stage} {st : Statement}
    (h : s.Accounts p k t (if e = t then st.declared k else []) s') :
    s.Accounts p k t [] { s' with stages := s'.stages.modify e fun b => b.add st } where
  advances := h.advances.trans (.of_eq rfl rfl rfl)
  blocks u := by
    rw [← h.blocks u, PerStage.get_modify]
    split
    · exact StageBuild.openBlocks_add
    · rfl
  visits := h.visits
  ledger hl := ⟨(h.ledger hl).bound, (h.ledger hl).told⟩
  balance x := by
    have balance := h.balance x
    have missed : BuildState.missed { s' with stages := s'.stages.modify e fun b => b.add st } k =
        s'.missed k := rfl
    rw [PerStage.get_modify, missed]
    by_cases he : e = t
    · rw [if_pos he] at balance
      rw [if_pos he.symm, StageBuild.count_declared_add]
      exact balance
    · rw [if_neg he] at balance
      rw [if_neg (Ne.symm he)]
      exact balance

/-- A block is closed; its statements are handed over. -/
theorem closeBlock {e : Stage}
    (h : ({ s with stages := s.stages.modify e StageBuild.openBlock } : BuildState).Accounts p k t
      [] s') :
    s.Accounts p k t
      (if e = t then Statement.declaredIn k (s'.stages.get e).innerStatements else [])
      { s' with stages := s'.stages.modify e StageBuild.closeBlock } where
  advances := by
    have opened : s.Advances p { s with stages := s.stages.modify e StageBuild.openBlock } :=
      .of_eq rfl rfl rfl
    exact (opened.trans h.advances).trans (.of_eq rfl rfl rfl)
  blocks := PerStage.openBlocks_closed h.blocks
  visits := h.visits
  ledger hl := by
    have ledger := h.ledger ⟨hl.bound, hl.told⟩
    exact ⟨ledger.bound, ledger.told⟩
  -- what the closed block declared moves from the open blocks to the statements handed over
  balance x := by
    have balance := h.balance x
    have missed : BuildState.missed { s with stages := s.stages.modify e StageBuild.openBlock } k =
        s.missed k := rfl
    have missed' : BuildState.missed
        { s' with stages := s'.stages.modify e StageBuild.closeBlock } k = s'.missed k := rfl
    rw [PerStage.get_modify, missed] at balance
    rw [PerStage.get_modify, missed']
    by_cases he : e = t
    · subst he
      rw [if_pos rfl, StageBuild.declared_openBlock] at balance
      rw [if_pos rfl, if_pos rfl, StageBuild.count_declared_closeBlock]
      exact balance
    · rw [if_neg (Ne.symm he)] at balance
      rw [if_neg (Ne.symm he), if_neg he]
      exact balance

/-- A visit is logged, with the name that it declares. -/
theorem visit {v : Visit} (h : s.Accounts p k t [] s') (ha : s'.Advances p s'')
    (hb : ∀ u, (s''.stages.get u).openBlocks = (s'.stages.get u).openBlocks)
    (hv : s''.visits = v :: s'.visits)
    (hd : ∀ x, ((s''.stages.get t).declared k).count x =
      ((s'.stages.get t).declared k).count x + (v.declared? k).toList.count x)
    (hl : s'.Ledger k → s''.Ledger k) : s.Accounts p k t [] s'' where
  advances := h.advances.trans ha
  blocks u := (hb u).trans (h.blocks u)
  visits := hv ▸ h.visits.trans (List.suffix_cons v _)
  ledger := hl ∘ h.ledger
  balance x := by
    have balance := h.balance x
    have missed : s''.missed k = (v.declared? k).toList ++ s'.missed k := by
      unfold BuildState.missed
      rw [hv, List.filterMap_cons]
      cases v.declared? k <;> rfl
    rw [missed, List.count_append, hd x]
    omega

/-- A visit that declares nothing is logged. -/
theorem log {v : Visit} (h : s.Accounts p k t [] s') (hd : v.declared? k = none)
    (hv : s'.Ledger k → v.key = k → v.Answers k s'.visits) :
    s.Accounts p k t [] { s' with visits := v :: s'.visits } := by
  refine h.visit (.of_eq rfl rfl rfl) (fun _ => rfl) rfl (fun x => ?_) fun hl => hl.log (hv hl)
  rw [hd]
  rfl

end Accounts

end BuildState

/-- What generation keeps to in the stage `e`, in a scope whose records are kept in `o`. -/
def Law.accounts (p : Plan) (k : CacheKey) (t e : Stage) (o : ScopeId) : Law where
  inv env s := Placed p o env s ∧ env.stage = e ∧ s.Ledger k
  rel ss s s' := s.Accounts p k t (if e = t then Statement.declaredIn k ss else []) s'
  ends _ := True
  refl s := by
    rw [Statement.declaredIn, ite_self]
    exact .refl s
  trans {ss ss' _ _ _} h h' := by
    have both := h.trans h'
    rw [Statement.declaredIn_append]
    split at both
    · next he =>
      rw [if_pos he]
      exact both
    · next he =>
      rw [if_neg he]
      exact both
  mono hi hr := ⟨hi.1.mono hr.advances, hi.2.1, hr.ledger hi.2.2⟩
  loops _ hi := ⟨hi.1.of_scope rfl rfl, hi.2⟩
  ordinary _ := trivial
  located _ := trivial

namespace Build

variable {p : Plan} {k : CacheKey} {t e : Stage} {o : ScopeId} {env : Env} {s s' : BuildState}
  {id : NodeId}

theorem accounts_rel :
    (Law.accounts p k t e o).rel [] s s' ↔ s.Accounts p k t [] s' := by
  show s.Accounts p k t (if e = t then Statement.declaredIn k [] else []) s' ↔ _
  rw [Statement.declaredIn, ite_self]

theorem accounts_unmoved : (Law.accounts p k t e o).Unmoved where
  ends _ := trivial
  rel _ h := accounts_rel.2 (.of_still h)

theorem inBlock_accounts {step : Build Unit} (h : (Law.accounts p k t e o).Keeps env step) :
    (Law.accounts p k t e o).Leaves env (inBlock step) := by
  rintro s ⟨placed, rfl, ledger⟩
  unfold inBlock
  rw [meets_bind, meets_modifyHere, meets_bind]
  have opened := h { s with stages := s.stages.modify env.stage StageBuild.openBlock }
    ⟨placed.mono (.of_eq rfl rfl rfl), rfl, ledger.bound, ledger.told⟩
  refine opened.imp fun _ s' hr => ?_
  rw [meets_bind, meets_here, meets_bind, meets_modifyHere, meets_pure]
  exact (accounts_rel.1 hr).closeBlock

/-- A binding of another node. -/
theorem bindName_accounts (hk : (⟨o, id, some e⟩ : CacheKey) ≠ k) (name : String)
    (frame : Option FrameId) : (Law.accounts p k t e o).Keeps env (bindName id name frame) := by
  rintro s ⟨placed, rfl, -⟩
  refine accounts_rel.2 (.of_same (.of_eq rfl rfl rfl) rfl ?_ (fun _ => rfl) fun _ => rfl)
  have key : keyAt env s id = ⟨o, id, some env.stage⟩ := placed.keyAt
  unfold keyAt at key
  exact NodeCache.bound?_bind.trans (if_neg fun h => hk (key ▸ h.symm))

/-- What binds no other key and adds no declaration of a variable keeps the accounts. -/
theorem accounts_closed {value : NodeId} {name : Option String} {readOnly : Bool}
    (hk : p.node k.node = .ok (.var value name readOnly)) : (Law.accounts p k t e o).Closed := by
  refine closed_ofStill accounts_unmoved (fun env id n name hn hs => .read fun s hi => ?_)
    (fun {env s s' st} hi ho hr => ?_) inBlock_accounts
  · have other : (⟨o, id, some e⟩ : CacheKey) ≠ k := by
      rintro rfl
      obtain rfl := hi.1.plan
      cases hk.symm.trans hn
      cases hs
    exact bindName_accounts other _ _ s hi
  · obtain ⟨-, rfl, -⟩ := hi
    have added : s.Accounts p k t (if env.stage = t then st.declared k else []) s' := by
      rw [Statement.declared_of_owner ho.owner]
      exact hr
    exact accounts_rel.2 added.add

end Build

end ShaderGraph
