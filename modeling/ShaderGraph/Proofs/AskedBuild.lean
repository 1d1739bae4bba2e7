import ShaderGraph.Proofs.AskedCode
import ShaderGraph.Proofs.LabelsBuild

/-!
# What generation asks for, node by node

The value of a node that may be bound is recalled, is passed on or gets a name (`Outcome`); each is
a visit that asks for the operands of the node unless it is recalled (`Outcome.log`). A varying asks
for its source in the vertex stage when it is met first (`varying_asks`). So generation of the roots
of a plain plan asks for the roots (`run_asks`).
-/

namespace ShaderGraph

open Build

namespace BuildState

variable {p : Plan} {s : BuildState}

namespace Proceeds

/-- A visit is logged. -/
theorem log (v : Visit) : s.Proceeds p { s with visits := v :: s.visits } where
  advances := .of_eq rfl rfl rfl
  finds := .of_eq rfl rfl rfl rfl
  uses _ := rfl
  statements _ := List.prefix_rfl
  blocks _ := rfl

/-- A node is bound to a name. -/
theorem coining (env : Env) (id : NodeId) (b : BoundName) : s.Proceeds p (s.coining env id b) where
  advances := .of_eq rfl rfl rfl
  finds := .of_eq rfl rfl rfl rfl
  uses _ := NodeCache.uses_bind
  statements _ := List.prefix_rfl
  blocks _ := rfl

end Proceeds

end BuildState

namespace Build

open Law BuildState

variable {p : Plan} {env : Env} {g : Generator} {s s' s'' : BuildState} {id c : NodeId} {n : Node}
  {asked : List CacheKey} {code : Option Expr}

/-! ### Visits -/

theorem visited_before (h : s.visits <:+ s'.visits) :
    s'.visits.drop (s'.visits.length - s.visits.length) = s.visits := by
  obtain ⟨new, hv⟩ := h
  rw [← hv, List.length_append, Nat.add_sub_cancel, List.drop_left]

/-- What is bound may be bound. -/
theorem missed_of_unbound (hi : (Asking.generating p).inv env s) (hn : p.node id = .ok n)
    (hb : n.mayBind = false) : (visitAt env s id none).recalls = false := by
  refine Bool.eq_false_iff.2 fun hr => ?_
  obtain ⟨b, hbound, -⟩ := Visit.recalls_iff.1 hr
  obtain ⟨n', hn', hb'⟩ := (hi.2.2.2.bound _ b hbound).node
  cases hn.symm.trans hn'
  exact absurd hb' (by rw [hb]; exact Bool.false_ne_true)

/-- What is known of a visit that was not recalled. -/
theorem tale_of_missed (hi : (Asking.generating p).inv env s) (h : s.Asks p asked s')
    (hg : s'.Proceeds p s'') (missed : (visitAt env s id none).recalls = false)
    (below : asked ⊆ p.references (keyAt env s id)) (mute : code = none → p.Mute id) :
    s''.Tale p (visitAt env s id code) s'.visits where
  recalled hr := nomatch missed.symm.trans hr
  cause hr := nomatch missed.symm.trans hr
  fresh _ hm w hw hk := by
    rw [show (visitAt env s id code).since = s.visits.length from rfl, visited_before h.suffix] at hw
    refine hg.slack (h.proceeds.slack ?_)
    refine (hi.2.2.2.held w hw (hk ▸ hm)).resolve_left fun bound => ?_
    obtain ⟨b, hb⟩ := Option.isSome_iff_exists.1 bound
    rw [hk] at hb
    have sees : (visitAt env s id none).Sees b := hi.2.2.2.sees hi.1.2 hb
    exact nomatch missed.symm.trans (Visit.recalls_iff.2 ⟨b, hb, sees⟩)
  inside w hw := by
    obtain ⟨new, placed, hv, -, among, -⟩ := h.visits
    rw [show (visitAt env s id code).since = s.visits.length from rfl, hv, List.length_append,
      Nat.add_sub_cancel, List.take_left] at hw
    exact ((among _ (List.mem_append_left _ (List.mem_map_of_mem hw))).mono below).transGen
  mute := mute

/-- A visit that is not recalled asks for what the steps before asked for. -/
theorem log_missed (hi : (Asking.generating p).inv env s) (hn : p.node id = .ok n)
    (h : s.Asks p asked s') (hg : s'.Proceeds p s'')
    (hv : s''.visits = visitAt env s id code :: s'.visits)
    (hb : ∀ k b, s''.cache.bound? k = some b → s'.cache.bound? k = some b ∨ s''.GoesBy p k b)
    (hk : ∀ k, (s'.cache.bound? k).isSome = true → (s''.cache.bound? k).isSome = true)
    (missed : (visitAt env s id none).recalls = false)
    (ha : asked = if (visitAt env s id code).asks p s'.visits then p.operandsAt (keyAt env s id)
      else [])
    (held : n.mayBind = true →
      (s''.cache.bound? (keyAt env s id)).isSome = true ∨ s''.Slack p (visitAt env s id code))
    (mute : code = none → p.Mute id)
    (written : ∀ id' n', p.node id' = .ok n' → n'.isVarying = true →
      (isWritten s'' id' = true ↔ isWritten s' id' = true ∨ id = id')) :
    s.Asks p [⟨.root, id, some env.stage⟩] s'' := by
  refine h.log hg hv hi.2.1.keyAt ha fun hs => ?_
  have below : asked ⊆ p.references (keyAt env s id) := by
    rw [ha]
    split
    · exact (p.operandsAt_sublist _).subset
    · exact List.nil_subset _
  refine (h.orderly hs).log hg hv hb hk (tale_of_missed hi h hg missed below mute) ?_ written
  rintro ⟨n', hn', hm⟩
  cases hn.symm.trans hn'
  exact held hm

/-- The operands of another node than a varying are asked for in its stage. -/
theorem operandsAt_own {stage : Option Stage} (hn : p.node id = .ok n) (hv : n.isVarying = false) :
    p.operandsAt ⟨.root, id, stage⟩ = p.keysOf stage (p.operands n) := by
  have hk : p.node (CacheKey.mk .root id stage).node = .ok n := hn
  rw [Plan.operandsAt_of_node hk]
  cases n <;> first | rfl | cases hv

theorem other_of_varying {m : NodeId} {n' : Node} (hn : p.node id = .ok n) (hv : n.isVarying = false)
    (hn' : p.node m = .ok n') (hv' : n'.isVarying = true) : id ≠ m := by
  rintro rfl
  cases hn.symm.trans hn'
  cases hv.symm.trans hv'

/-- A node that is never bound asks for its operands. -/
theorem log_unbound (hi : (Asking.generating p).inv env s) (hn : p.node id = .ok n)
    (hb : n.mayBind = false) (hv : n.isVarying = false)
    (h : s.Asks p (p.keysOf (some env.stage) (p.operands n)) s') (mute : code = none → p.Mute id) :
    s.Asks p [⟨.root, id, some env.stage⟩]
      { s' with visits := visitAt env s id code :: s'.visits } := by
  refine log_missed hi hn h (.log _) rfl (fun _ _ => .inl) (fun _ h => h)
    (missed_of_unbound hi hn hb) ?_ (fun hm => absurd hm (by rw [hb]; exact Bool.false_ne_true)) mute
    fun id' n' hn' hv' => ⟨.inl, fun hw => hw.resolve_right (other_of_varying hn hv hn' hv')⟩
  rw [Visit.asks_of_node (v := visitAt env s id code) hn, hv, hb, hi.2.1.keyAt]
  exact (operandsAt_own hn hv).symm

/-! ### Values that may be bound -/

/-- What asking for the value of a node that may be bound ends with: a name that is recalled, or after
steps that ask for the keys `asked` the value as it is or a new name. -/
inductive Outcome (p : Plan) (env : Env) (s : BuildState) (id : NodeId) (asked : List CacheKey) :
    Option Expr → BuildState → Prop
  | recalled {b : BoundName} (hb : s.cache.bound? (keyAt env s id) = some b)
      (hs : (visitAt env s id none).Sees b) :
      Outcome p env s id asked (some (localName b.name)) s
  | passed {code : Option Expr} {s' : BuildState} (missed : (visitAt env s id none).recalls = false)
      (hr : s.Asks p asked s') (slack : s'.Slack p (visitAt env s id code))
      (mute : code = none → p.Mute id) : Outcome p env s id asked code s'
  | named {b : BoundName} {s' : BuildState} (missed : (visitAt env s id none).recalls = false)
      (hr : s.Asks p asked s') (block : b.block = (s'.stages.get env.stage).currentBlock)
      (frame : ∀ f, b.frame = some f → f = .root)
      (declared : ∃ type, ∃ st ∈ (s'.stages.get env.stage).outer.statements,
        st.typed = [(b.name, type)])
      (numbered : ∀ n, p.node id = .ok n → n.isTemp = true →
        ∃ i : Nat, b.name = "nodeVar" ++ toString i)
      (cause : p.AlwaysBinds id ∨ 2 ≤ s'.cache.uses (keyAt env s id)) :
      Outcome p env s id asked (some (localName b.name)) (s'.coining env id b)

/-- A name that is recalled asks for nothing. -/
theorem log_recalled (hi : (Asking.generating p).inv env s) (hn : p.node id = .ok n)
    (hb : n.mayBind = true) (hv : n.isVarying = false) {b : BoundName}
    (hbound : s.cache.bound? (keyAt env s id) = some b) (hs : (visitAt env s id none).Sees b) :
    s.Asks p [⟨.root, id, some env.stage⟩]
      { s with visits := visitAt env s id (some (localName b.name)) :: s.visits } := by
  have recalls : (visitAt env s id (some (localName b.name))).recalls = true :=
    Visit.recalls_iff.2 ⟨b, hbound, hs⟩
  refine (Asks.refl s).log (.log _) rfl hi.2.1.keyAt ?_ fun orderly => ?_
  · rw [Visit.asks_of_node (v := visitAt env s id (some (localName b.name))) hn, hv, hb, recalls]
    rfl
  · refine orderly.log (.log _) rfl (fun _ _ => .inl) (fun _ h => h)
      ⟨fun _ => ?_, fun _ => (orderly.bound _ b hbound).cause, ?_, ?_, ?_⟩
      (fun _ => .inl (Option.isSome_iff_exists.2 ⟨b, hbound⟩))
      fun id' n' hn' hv' => ⟨.inl, fun hw => hw.resolve_right (other_of_varying hn hv hn' hv')⟩
    · obtain ⟨w, hw, hk, fresh, hc⟩ := (orderly.bound _ b hbound).origin
      exact ⟨w, hw, hk, fresh, hc⟩
    · intro hr
      cases recalls.symm.trans hr
    · intro w hw
      rw [show (visitAt env s id (some (localName b.name))).since = s.visits.length from rfl,
        Nat.sub_self, List.take_zero] at hw
      cases hw
    · rintro ⟨⟩

/-- The visit at a node that may be bound. -/
theorem Outcome.log (hi : (Asking.generating p).inv env s) (hn : p.node id = .ok n)
    (hb : n.mayBind = true) (hv : n.isVarying = false)
    (h : Outcome p env s id (p.keysOf (some env.stage) (p.operands n)) code s') :
    s.Asks p [⟨.root, id, some env.stage⟩]
      { s' with visits := visitAt env s id code :: s'.visits } := by
  have key : keyAt env s id = ⟨.root, id, some env.stage⟩ := hi.2.1.keyAt
  have asks : (visitAt env s id none).recalls = false → ∀ code older,
      p.keysOf (some env.stage) (p.operands n) = if (visitAt env s id code).asks p older
        then p.operandsAt (keyAt env s id) else [] := by
    intro missed code older
    have fresh : (visitAt env s id code).recalls = false := missed
    rw [Visit.asks_of_node (v := visitAt env s id code) hn, hv, hb, fresh, key]
    exact (operandsAt_own hn hv).symm
  have unwritten : ∀ {s' : BuildState} id' n', p.node id' = .ok n' → n'.isVarying = true →
      (isWritten s' id' = true ↔ isWritten s' id' = true ∨ id = id') :=
    fun id' n' hn' hv' => ⟨.inl, fun hw => hw.resolve_right (other_of_varying hn hv hn' hv')⟩
  cases h with
  | recalled hbound hs => exact log_recalled hi hn hb hv hbound hs
  | passed missed hr slack mute =>
    exact log_missed hi hn hr (.log _) rfl (fun _ _ => .inl) (fun _ h => h) missed (asks missed _ _)
      (fun _ => .inr slack) mute unwritten
  | @named b s' missed hr block frame declared numbered cause =>
    have placed := hi.2.1.mono hr.proceeds.advances
    have key' : keyAt env s' id = keyAt env s id := placed.keyAt.trans key.symm
    have own : ∀ k, (s'.coining env id b).cache.bound? k =
        if k = keyAt env s id then some b else s'.cache.bound? k := by
      intro k
      rw [← key']
      exact NodeCache.bound?_bind
    have blocks := ((Asking.generating p).mono hi hr).2.2.2.blocks env.stage
    refine log_missed hi hn hr ((Proceeds.coining env id b).trans (.log _)) rfl (fun k b' hb' => ?_)
      (fun k hk => ?_) missed (asks missed _ _) (fun _ => .inl ?_) (by rintro ⟨⟩) unwritten
    · refine Classical.or_iff_not_imp_left.2 fun old => ?_
      have bound : (s'.coining env id b).cache.bound? k = some b' := hb'
      rw [own] at bound
      split at bound
      · next he =>
        cases bound
        subst he
        refine ⟨?_, frame, ⟨n, hn, hb⟩, ⟨_, .head _, rfl, missed, rfl⟩, ?_,
          fun n' hn' => numbered n' hn', ?_⟩
        · have current := congrArg List.head? blocks
          rw [StageBuild.head?_openBlocks] at current
          exact block.trans (Option.some.inj current)
        · obtain ⟨type, declaration⟩ := declared
          exact ⟨env.stage, type, rfl, declaration⟩
        · have uses : (s'.coining env id b).cache.uses (keyAt env s id) =
              s'.cache.uses (keyAt env s id) := NodeCache.uses_bind
          exact cause.imp_right fun more => uses ▸ more
      · exact absurd bound old
    · show ((s'.coining env id b).cache.bound? k).isSome = true
      rw [own]
      split
      · rfl
      · exact hk
    · show ((s'.coining env id b).cache.bound? _).isSome = true
      rw [own, if_pos rfl]
      rfl

/-- A numbered name is declared in the outermost block. -/
theorem declareTemp_asks (hi : (Asking.generating p).inv env s) (type : ValueType)
    (init : Option Expr) (m : Mutability) :
    Meets (declareTemp type init m) env s (fun _ => True) fun x s' => s.Asks p [] s' ∧
      (∃ type, ∃ st ∈ (s'.stages.get env.stage).outer.statements, st.typed = [(x, type)]) ∧
        ∃ i : Nat, x = "nodeVar" ++ toString i := by
  have straight : (Asking.generating p).law.Straight := generating_straight
  have numbered : Returns (fun x => ∃ i : Nat, x = "nodeVar" ++ toString i) claimTemp :=
    fun _ _ => ⟨_, rfl⟩
  unfold declareTemp
  rw [meets_bind]
  refine (straight.useType type s hi).imp fun _ s₁ h₁ => ?_
  have hi₁ := (Asking.generating p).mono hi h₁
  rw [meets_bind]
  refine ((straight.claimTemp s₁ hi₁).and (numbered env s₁)).imp ?_
  rintro x s₂ ⟨⟨h₂, -⟩, number⟩
  have hi₂ := (Asking.generating p).mono hi₁ h₂
  rw [meets_bind]
  refine (addStatement_asks (.declare x type init m none) hi₂).imp fun _ s₃ h₃ => ?_
  exact ⟨h₁.trans (h₂.trans h₃.1), ⟨type, _, h₃.2, rfl⟩, number⟩

/-- The value of a node is recalled, left as it is or bound to a name. -/
theorem buildTemp_outcome (hi : (Asking.generating p).inv env s) (hm : p.resolve id = .ok id)
    (ho : ¬p.AlwaysBinds id) {step : Build (Option Expr)} (h : Codes p env s asked (p.Mute id) step) :
    Meets (buildTemp id step) env s (fun _ => True) (Outcome p env s id asked) := by
  refine meets_recalling (fun _ => rfl) (fun _ => .recalled) fun missed => ?_
  dsimp only
  rw [meets_bind]
  refine Meets.imp h ?_
  rintro code s₁ ⟨h₁, mute⟩
  have hi₁ := (Asking.generating p).mono hi h₁
  rw [meets_bind]
  refine (typeOf_asks id hi₁).imp ?_
  rintro type s₂ ⟨h₂, typed⟩
  have hi₂ := (Asking.generating p).mono hi₁ h₂
  have computed := h₁.before h₂
  cases code with
  | none => exact .passed missed computed ⟨ho, .inr (.inl rfl)⟩ fun _ => mute rfl
  | some code =>
    show Meets (usage id >>= _) env s₂ _ _
    unfold usage
    rw [meets_bind, meets_bind, meets_read, meets_bind, meets_get, meets_pure]
    have key : keyAt env s₂ id = keyAt env s id := hi₂.2.1.keyAt.trans hi.2.1.keyAt.symm
    have usage : s₂.cache.usage env.scope id (some env.stage) = s₂.cache.uses (keyAt env s id) := by
      rw [← key]
      exact NodeCache.usage_eq
    rw [usage]
    refine (meets_ite _ _ _).2
      ⟨fun once => .passed missed computed ⟨ho, ?_⟩ (by rintro ⟨⟩), fun often => ?_⟩
    · rw [Bool.or_eq_true, decide_eq_true_eq, decide_eq_true_eq] at once
      rcases once with rfl | once
      · exact .inr (.inr (typed id hm))
      · exact .inl once
    · show Meets (declareTemp _ _ _ >>= _) env s₂ _ _
      rw [meets_bind]
      refine (declareTemp_asks hi₂ type _ _).imp ?_
      rintro x s₃ ⟨h₃, declared, numbered⟩
      refine .named (b := ⟨x, _, _⟩) missed (computed.before h₃) rfl ?_ declared
        (fun _ _ _ => numbered) (.inr ?_)
      · rintro f ⟨⟩
        rw [hi.1.2]
        rfl
      · rw [Bool.or_eq_true, decide_eq_true_eq, decide_eq_true_eq, not_or, Nat.not_le] at often
        rw [h₃.proceeds.uses]
        exact often.2

/-- The result of a call is recalled or bound to a name, unless there is none. -/
theorem buildCall_outcome (hg : Generating p g) (hi : (Asking.generating p).inv env s)
    {f : FunctionId} {args : List NodeId} (hn : p.node id = .ok (.call f args)) :
    Meets (buildCall g id f args) env s (fun _ => True)
      (Outcome p env s id (p.keysOf (some env.stage) args)) := by
  have straight : (Asking.generating p).law.Straight := generating_straight
  refine meets_recalling (fun _ => rfl) (fun _ => .recalled) fun missed => ?_
  dsimp only
  rw [meets_bind]
  refine ((registerFunction_finds f s (generating_finding hi)).and
    (registerFunction_still f s trivial)).imp ?_
  rintro entry s₁ ⟨⟨found, result⟩, still⟩
  have h₁ : s.Asks p [] s₁ := .of_still found.1 still
  have hi₁ := (Asking.generating p).mono hi h₁
  refine meets_check fun length => ?_
  rw [meets_bind]
  refine (straight.useFunction f s₁ hi₁).imp fun _ s₂ h₂ => ?_
  have hi₂ := (Asking.generating p).mono hi₁ h₂
  have arguments : (Asking.generating p).Asks env (p.keysOf (some env.stage) args)
      ((args.zip entry.inputs).mapM fun a => buildArgument g entry.name a.1 a.2) := by
    have zipped : (args.zip entry.inputs).map Prod.fst = args :=
      List.map_fst_zip (not_not.1 length).ge
    have asked : p.keysOf (some env.stage) args =
        (args.zip entry.inputs).flatMap fun a => p.keysOf (some env.stage) [a.1] := by
      conv_lhs => rw [← zipped]
      rw [Plan.keysOf_flatMap, List.flatMap_map]
    rw [asked]
    exact .mapM fun a _ => buildArgument_asks hg entry.name a.1 a.2
  rw [meets_bind]
  refine (arguments s₂ hi₂).imp fun values s₃ h₃ => ?_
  have computed : s.Asks p (p.keysOf (some env.stage) args) s₃ := h₁.trans (h₂.trans h₃)
  have hi₃ := (Asking.generating p).mono hi₂ h₃
  refine (meets_ite _ _ _).2 ⟨fun void => ?_, fun value => ?_⟩
  · show Meets (addStatement (.call entry.name values) >>= _) env s₃ _ _
    rw [meets_bind]
    refine (addStatement_silent (.call entry.name values) s₃ hi₃).imp fun _ s₄ h₄ => ?_
    refine .passed missed (computed.before h₄) ⟨?_, .inr (.inl rfl)⟩ fun _ => .call hn (void ▸ result)
    rintro (hn' | ⟨hn', given⟩)
    · cases hn.symm.trans hn'
    · cases hn.symm.trans hn'
      exact given (void ▸ result)
  · show Meets (declareTemp _ _ _ >>= _) env s₃ _ _
    rw [meets_bind]
    refine (declareTemp_asks hi₃ entry.result _ _).imp ?_
    rintro x s₄ ⟨h₄, declared, numbered⟩
    refine .named (b := ⟨x, _, _⟩) missed (computed.before h₄) rfl ?_ declared (fun _ _ _ => numbered)
      (.inl (.call hn fun void => value (Option.some.inj (result.symm.trans void))))
    rintro f ⟨⟩
    rw [hi.1.2]
    rfl

/-- A variable is recalled or declared. -/
theorem buildVariable_outcome (hg : Generating p g) (hi : (Asking.generating p).inv env s)
    {value : NodeId} {name : Option String} {readOnly : Bool}
    (hn : p.node id = .ok (.var value name readOnly)) :
    Meets (some <$> buildVariable g id value name readOnly) env s (fun _ => True)
      (Outcome p env s id (p.keysOf (some env.stage) [value])) := by
  have straight : (Asking.generating p).law.Straight := generating_straight
  have prepare : (Asking.generating p).Asks env (p.keysOf (some env.stage) [value])
      (prepareVariable g id value name) := by
    refine .after (typeOf_silent id) fun type => .before (hg.value value type) fun init => ?_
    refine .bind (straight.useType type) fun _ => ?_
    cases name with
    | some x => exact .bind (straight.claimLocal x).keeps fun _ => .pure _
    | none => exact .bind straight.claimTemp.keeps fun _ => .pure _
  unfold buildVariable
  rw [map_bind]
  refine meets_recalling (fun _ => rfl) (fun _ => .recalled) fun missed => ?_
  dsimp only
  rw [meets_map, meets_bind]
  refine (prepare s hi).imp ?_
  rintro ⟨type, init, x⟩ s₁ h₁
  have hi₁ := (Asking.generating p).mono hi h₁
  show Meets (declareVariable id value readOnly x type init >>= _) env s₁ _ _
  rw [meets_bind]
  refine meets_declareVariable fun m => ?_
  have added := addStatement_asks (.declare x type (some init) m (some (keyAt env s₁ id))) hi₁
  refine .named (b := ⟨x, _, none⟩) missed (h₁.before added.1) rfl ?_ ⟨type, _, added.2, rfl⟩
    ?_ (.inl (.var hn))
  · rintro f ⟨⟩
  · intro n hn' temp
    cases hn.symm.trans hn'
    cases temp

/-! ### Varyings -/

/-- A varying that gets its location is written from then on. -/
theorem locateVarying_written (id : NodeId) (v : VaryingEntry) :
    Meets (locateVarying id v) env s (fun _ => True) fun _ s' =>
      ∀ j, isWritten s' j = true ↔ isWritten s j = true ∨ id = j := by
  unfold locateVarying
  rw [meets_modify]
  intro j
  split
  · next written =>
    refine ⟨.inl, fun hw => hw.elim (fun h => h) ?_⟩
    rintro rfl
    exact written
  · have location : isWritten { s with
        varyings := s.varyings.put id { v with location := some s.nextVarying }
        nextVarying := s.nextVarying + 1 } j = if j = id then true else isWritten s j := by
      unfold isWritten
      rw [OrderedMap.get?_put]
      split <;> rfl
    rw [location]
    split
    · next he => exact iff_of_true rfl (.inr he.symm)
    · next he => exact ⟨.inl, fun hw => hw.resolve_right (Ne.symm he)⟩

theorem generating_within (hi : (Asking.generating p).inv env s) (t : Stage) :
    (Asking.generating p).inv (within env t) s := by
  obtain ⟨surroundings, placed, rest⟩ := hi
  refine ⟨?_, placed.within t, rest⟩
  unfold within
  split
  · exact surroundings
  · exact surroundings

/-- A later state in which a varying is written; nothing is visited or bound on the way. -/
structure Writing (p : Plan) (id : NodeId) (s s' : BuildState) : Prop where
  proceeds : s.Proceeds p s'
  visits : s'.visits = s.visits
  bound : ∀ k, s'.cache.bound? k = s.cache.bound? k
  written : ∀ j, isWritten s' j = true ↔ isWritten s j = true ∨ id = j

/-- The varying is listed among those of a stage. -/
theorem Writing.mark (h : Writing p id s s') {t : Stage} : Writing p id s
    { s' with stages := s'.stages.modify t fun b => { b with varyings := appendNew b.varyings id } } where
  proceeds := h.proceeds.trans (.modify s' t (fun _ => List.prefix_rfl) fun _ => rfl)
  visits := h.visits
  bound := h.bound
  written := h.written

/-- The vertex program writes a varying that is not written, after the code of its source. -/
theorem writeVarying_asks (hg : Generating p g) (hi : (Asking.generating p).inv env s)
    {v : VaryingEntry} {name : Option String} {interpolation : Interpolation}
    {sampling : Option Sampling}
    (hn : p.node id = .ok (.varying v.source name interpolation sampling))
    (hv : s.varyings.get? id = some v) (hw : v.location.isSome = isWritten s id) :
    Meets (writeVarying g id v) env s (fun _ => True) fun _ s'' => ∃ s',
      s.Asks p (if isWritten s id then [] else p.keysOf (some .vertex) [v.source]) s' ∧
        Writing p id s' s'' := by
  unfold writeVarying
  refine (meets_ite _ _ _).2 ⟨fun located => ?_, fun fresh => ?_⟩
  · rw [hw] at located
    refine ⟨s, ?_, .refl s, rfl, fun _ => rfl, fun j => ⟨.inl, fun hw => hw.elim (fun h => h) ?_⟩⟩
    · rw [if_pos located]
      exact .refl s
    · rintro rfl
      exact located
  · rw [hw] at fresh
    rw [if_neg fresh]
    have assign : (Asking.generating p).Asks (within env .vertex) (p.keysOf (some .vertex) [v.source])
        (do
          let e ← g.value v.source v.type
          addStatement (.assign (.reference (.varying .vertex v.name)) e)
          modifyHere fun b => { b with varyings := appendNew b.varyings id }) := by
      have value : (Asking.generating p).Asks (within env .vertex) _ (g.value v.source v.type) :=
        hg.value v.source v.type
      rw [stage_within] at value
      refine .before value fun e => .bind (addStatement_silent _) fun _ => ?_
      exact generating_tabular.mark id
    show Meets (inStage .vertex _ >>= _) env s _ _
    rw [meets_bind, meets_inStage]
    refine (assign s (generating_within hi .vertex)).imp fun _ s' asks => ?_
    obtain ⟨location, hv'⟩ := asks.proceeds.finds.varyings hv
    have entering : (Law.enteringVarying p).Keeps env (locateVarying id v) := locateVarying_entering hn
    have finds : Meets (locateVarying id v) env s' (fun _ => True) fun _ s'' => s'.Finds p s'' :=
      locateVarying_finds hv'
    refine ((finds.and (entering s' trivial)).and (locateVarying_written id v)).imp ?_
    rintro _ s'' ⟨⟨finds, entering⟩, written⟩
    have quiet : s'.Quiet s'' := .of_entering entering
    have records := congrArg (NodeCache.records ∘ Still.cache) entering.1
    exact ⟨s', asks, .of_quiet (.of_entering entering) finds quiet records, quiet.visits, quiet.bound,
      written⟩

/-- A varying asks for its source when it is met first. -/
theorem varying_asks (hg : Generating p g) (hi : (Asking.generating p).inv env s) {source : NodeId}
    {name : Option String} {interpolation : Interpolation} {sampling : Option Sampling}
    (hn : p.node id = .ok (.varying source name interpolation sampling)) :
    Meets (some <$> buildVarying g id source name interpolation sampling) env s (fun _ => True)
      fun code s' => s.Asks p [⟨.root, id, some env.stage⟩]
        { s' with visits := visitAt env s id code :: s'.visits } := by
  rw [meets_map]
  unfold buildVarying
  rw [meets_bind, meets_stage]
  refine meets_check fun _ => ?_
  rw [meets_bind]
  refine (((registerVarying_finds (generating_finding hi)).and
    (registerVarying_still hn hi.2.1.regular.varyings)).and
      (registerVarying_location id source name interpolation sampling s)).imp ?_
  rintro v s₁ ⟨⟨⟨found, hv⟩, entering, rfl⟩, unwritten, location⟩
  have quiet : s.Quiet s₁ := .of_entering entering
  have records := congrArg (NodeCache.records ∘ Still.cache) entering.1
  have h₁ : s.Asks p [] s₁ :=
    .of_same (.of_quiet (.of_entering entering) found.1 quiet records) quiet.visits quiet.bound unwritten
  rw [meets_bind]
  refine (writeVarying_asks hg ((Asking.generating p).mono hi h₁) hn hv
    (location.trans (unwritten id).symm)).imp ?_
  rintro _ s₃ ⟨s₂, h₂, writing⟩
  have asks := h₁.trans h₂
  rw [unwritten id] at asks
  -- the visit comes first exactly when the varying is not written
  have first : ∀ code, (if isWritten s id then [] else p.keysOf (some .vertex) [v.source]) =
      if (visitAt env s id code).asks p s₂.visits then p.operandsAt (keyAt env s id) else [] := by
    intro code
    have own : p.node (keyAt env s id).node = .ok (.varying v.source name interpolation sampling) := hn
    have operands : p.operandsAt (keyAt env s id) = p.keysOf (some .vertex) [v.source] :=
      Plan.operandsAt_of_node own
    have isFirst : (visitAt env s id code).IsFirst id s₂.visits ↔ ¬isWritten s id = true := by
      rw [isFirst_visitAt asks.suffix, hi.2.2.2.written id _ hn rfl]
      push Not
      exact ⟨And.right, fun h => ⟨rfl, h⟩⟩
    rw [Visit.asks_of_node (v := visitAt env s id code) hn, operands]
    show _ = if decide ((visitAt env s id code).IsFirst id s₂.visits) = true then _ else _
    split
    · next written => rw [if_neg fun h => isFirst.1 (of_decide_eq_true h) written]
    · next fresh => rw [if_pos (decide_eq_true (isFirst.2 fresh))]
  have logged : ∀ s₄, Writing p id s₂ s₄ → ∀ e : Expr, s.Asks p [⟨.root, id, some env.stage⟩]
      { s₄ with visits := visitAt env s id (some e) :: s₄.visits } := by
    intro s₄ h₄ e
    refine log_missed hi hn asks (h₄.proceeds.trans (.log _)) (by rw [h₄.visits])
      (fun k b hb => .inl ((h₄.bound k).symm.trans hb)) (fun k hk => ?_)
      (missed_of_unbound hi hn rfl) (first _) (by rintro ⟨⟩) (by rintro ⟨⟩) fun j _ _ _ => h₄.written j
    show (s₄.cache.bound? k).isSome = true
    rw [h₄.bound]
    exact hk
  refine (meets_ite _ _ _).2 ⟨fun _ => ?_, fun _ => logged s₃ writing _⟩
  show Meets (modifyHere _ >>= _) env s₃ _ _
  rw [meets_bind, meets_modifyHere, meets_pure]
  exact logged _ writing.mark _

/-! ### All nodes -/

theorem Outcome.mute (h : Outcome p env s id asked code s') (hc : code = none) : p.Mute id := by
  cases h with
  | passed _ _ _ mute => exact mute hc
  | recalled | named => cases hc

theorem returns_some (step : Build Expr) : Returns (· ≠ none) (some <$> step) := by
  intro env s
  rw [meets_map]
  refine (meets_true _).imp fun e s' _ => ?_
  rintro ⟨⟩

/-- The step for a node with the visit at it asks for the node. -/
theorem generateNode_asks (plain : n.keepsPlace = true) (hg : Generating p g)
    (hi : (Asking.generating p).inv env s) (hm : p.resolve id = .ok id) (hn : p.node id = .ok n) :
    Meets (generateNode g id n) env s (fun _ => True) fun code s' =>
      s.Asks p [⟨.root, id, some env.stage⟩]
        { s' with visits := visitAt env s id code :: s'.visits } ∧ (code = none → p.Mute id) := by
  have settled : ∀ {asked} {step : Build (Option Expr)}, n.mayBind = true → n.isVarying = false →
      asked = p.keysOf (some env.stage) (p.operands n) →
      Meets step env s (fun _ => True) (Outcome p env s id asked) →
      Meets step env s (fun _ => True) fun code s' => s.Asks p [⟨.root, id, some env.stage⟩]
        { s' with visits := visitAt env s id code :: s'.visits } ∧ (code = none → p.Mute id) := by
    rintro _ step hb hv rfl h
    exact h.imp fun code s' outcome => ⟨outcome.log hi hn hb hv, outcome.mute⟩
  cases hv : n.isVarying with
  | true =>
    cases n with
    | varying source name interpolation sampling =>
      refine ((varying_asks hg hi hn).and (returns_some _ env s)).imp fun code s' hr => ⟨hr.1, ?_⟩
      rintro rfl
      exact absurd rfl hr.2
    | _ => cases hv
  | false =>
  cases hb : n.mayBind with
  | false =>
    refine Meets.imp (codes_unbound hg hi hn plain hb hv) fun code s' hr => ⟨?_, hr.2⟩
    exact log_unbound hi hn hb hv hr.1 hr.2
  | true =>
    cases hc : computation? g id n with
    | some step =>
      rw [generateNode_computation hc]
      have ho : ¬p.AlwaysBinds id := by
        rintro (hn' | ⟨hn', -⟩)
        · cases hn.symm.trans hn'
          cases hc
        · cases hn.symm.trans hn'
          cases hc
      exact settled hb hv rfl (buildTemp_outcome hi hm ho (codes_computation hg hi hm hn hc))
    | none =>
      cases n with
      | call f args => exact settled hb hv rfl (buildCall_outcome hg hi hn)
      | var value name readOnly => exact settled hb hv rfl (buildVariable_outcome hg hi hn)
      | conditional => cases plain
      | texture | operator | unary | math | join | convert | struct | array => cases hc
      | _ => cases hb

/-- Generation of a node asks for the node. -/
theorem generator_asks (hp : p.Plain) (fuel : Nat) : Generating p (generator fuel) := by
  induction fuel with
  | zero => exact ⟨fun _ => trivial, fun _ _ => trivial⟩
  | succ fuel ih =>
    refine ⟨fun {env id s} hi => ?_, fun {env id} => buildPlace_asks ih id⟩
    obtain rfl := hi.1.1.1
    refine meets_emitNode (fun _ => trivial) fun m n hm hn => ?_
    rw [Plan.keysOf_singleton hm]
    refine (generateNode_asks (hp m n hn) ih hi (Plan.resolve_of_resolve hm) hn).imp ?_
    exact fun code s' hr => ⟨hr.1, fun none => ⟨m, hm, hr.2 none⟩⟩

/-- Generation of a stage asks for its root. -/
theorem generateStage_asks (hp : p.Plain) (root : NodeId) :
    (Asking.generating p).Asks env (p.keysOf (some env.stage) [root]) (generateStage root) := by
  have serves : ∀ depth, Generating p (generator depth) := generator_asks hp
  have value : ∀ stage, (Asking.generating p).Asks env (p.keysOf (some env.stage) [root])
      (generateRoot stage root) := by
    intro stage
    refine .after (.read (.pure _)) fun depth => ?_
    cases stage with
    | compute =>
      refine .before ((serves depth).emits root) fun code => ?_
      exact .when (fun _ => .discard (typeOf_silent root)) fun _ => .pure _
    | _ => exact .map _ ((serves depth).value root .vec4)
  exact .after .stage fun stage => .before (value stage) generating_tabular.finish

variable {rs : List (Stage × NodeId)}

/-- Before generation nothing was visited, bound or written. -/
theorem orderly_of_analyzed {active : List Stage}
    (h : atRoots p active analyze rs (BuildState.start p) = .ok s) : s.Orderly p := by
  obtain ⟨-, quiet, -⟩ := analyze_covers _ h
  have unvisited : s.visits = [] := quiet.visits
  have unbound : ∀ k, s.cache.bound? k = none := quiet.bound
  refine ⟨fun t => ?_, fun k b hb => ?_, fun v hv => ?_, fun v older hs => ?_, fun id n _ _ => ?_⟩
  · unfold StageBuild.openBlocks
    rw [quiet.inner, quiet.outer]
    cases t <;> rfl
  · cases (unbound k).symm.trans hb
  · rw [unvisited] at hv
    cases hv
  · rw [unvisited] at hs
    cases List.suffix_nil.1 hs
  · rw [(analyze_surveys h).written id, unvisited]
    exact iff_of_false Bool.false_ne_true (by rintro ⟨v, hv, -⟩; cases hv)

/-- Generation of the roots of a plain plan asks for the roots. -/
theorem run_asks (hp : p.Plain) (h : run p rs = .ok s) : ∃ s₀,
    atRoots p (rs.map Prod.fst) analyze rs (BuildState.start p) = .ok s₀ ∧ s₀.visits = [] ∧
      s.Orderly p ∧ s.Coherent p ∧ s₀.Asks p (p.rootKeys rs) s := by
  obtain ⟨s₀, hanalyze, hgenerate⟩ := of_run h
  obtain ⟨regular, quiet, -⟩ := analyze_covers _ hanalyze
  have start : ∀ r ∈ rs, (Asking.generating p).inv (Env.root p (rs.map Prod.fst) r.1) s₀ :=
    fun r _ => ⟨⟨⟨rfl, rfl⟩, rfl⟩, .root regular _ r.1, analyze_coherent hanalyze,
      orderly_of_analyzed hanalyze⟩
  have asks : s₀.Asks p (p.rootKeys rs) s :=
    Asking.atRoots start (fun r _ => generateStage_asks hp r.2) hgenerate
  exact ⟨s₀, hanalyze, quiet.visits, asks.orderly (orderly_of_analyzed hanalyze),
    asks.proceeds.finds.coherent (analyze_coherent hanalyze), asks⟩

end Build

end ShaderGraph
