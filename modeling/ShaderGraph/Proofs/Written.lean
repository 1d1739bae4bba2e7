import ShaderGraph.Proofs.Collected
import ShaderGraph.Proofs.Generation
import ShaderGraph.Proofs.Listing

/-!
# Varyings that are written

The vertex program writes a varying where its node is met before any meeting of it was answered
(`Visit.firsts`). So it holds one statement for each such visit, in the outermost block if no other
one was open (`BuildState.Writes`).
-/

namespace ShaderGraph

/-! ### Statements that write -/

/-- The varying that a place is, or is a part of. -/
def Expr.varying? : Expr → Option String
  | reference (.varying _ n) => some n
  | member base _ => base.varying?
  | index base _ => base.varying?
  | swizzle base _ => base.varying?
  | _ => none

/-- The varying that a statement itself writes. -/
def Statement.written? (st : Statement) : Option String := st.target?.bind Expr.varying?

/-- The varyings that some statements write, in their blocks as well: one for each statement. -/
def Statement.writtenIn (ss : List Statement) : List String :=
  collectIn (fun st => st.written?.toList) ss

namespace StageBuild

variable {b : StageBuild} {st : Statement} {n : String}

/-- The varyings that the entry point of a stage writes. -/
def written (b : StageBuild) : List String :=
  Statement.writtenIn b.locals ++ b.collect fun st => st.written?.toList

/-- The varyings that the entry point of a stage writes in its outermost block. -/
def writtenOutside (b : StageBuild) : List String :=
  (b.locals ++ b.outer.statements).filterMap Statement.written?

theorem count_written_add : (b.add st).written.count n =
    b.written.count n + (st.written?.toList.count n + (Statement.writtenIn st.blocks).count n) := by
  unfold written
  rw [locals_add, List.count_append, collect_add.count_eq, List.count_append, Statement.collect_eq,
    List.count_append, List.count_append, Nat.add_assoc]
  rfl

theorem written_openBlock : b.openBlock.written = b.written := by
  unfold written
  rw [collect_openBlock]
  rfl

theorem count_written_closeBlock : b.closeBlock.written.count n +
    (Statement.writtenIn b.innerStatements).count n = b.written.count n := by
  have locals : b.closeBlock.locals = b.locals := rfl
  unfold written Statement.writtenIn
  rw [locals, List.count_append, List.count_append, ← collect_closeBlock (b := b),
    List.count_append]
  omega

theorem writtenOutside_add : (b.add st).writtenOutside =
    b.writtenOutside ++ if b.inner = [] then st.written?.toList else [] := by
  unfold writtenOutside
  rw [locals_add]
  unfold add
  cases b.inner with
  | nil =>
    rw [if_pos rfl, ← List.append_assoc, List.filterMap_append]
    cases h : st.written? <;> simp [h]
  | cons block rest => rw [if_neg (List.cons_ne_nil _ _), List.append_nil]

end StageBuild

/-! ### Visits that write -/

namespace Visit

variable {id : NodeId} {v : Visit} {older : List Visit}

/-- A visit of a node that came when none of the older ones was answered. -/
def IsFirst (id : NodeId) (older : List Visit) (v : Visit) : Prop :=
  v.key.node = id ∧ ∀ w ∈ older.drop (older.length - v.since), w.key.node ≠ id

instance (id : NodeId) (older : List Visit) (v : Visit) : Decidable (v.IsFirst id older) :=
  inferInstanceAs (Decidable (_ ∧ _))

/-- The visits in a log that came when no visit of the node was answered. The first is not the only
one when the node is met again below itself. -/
def firsts (id : NodeId) : List Visit → List Visit
  | [] => []
  | v :: older => if v.IsFirst id older then v :: firsts id older else firsts id older

/-- Whether the vertex program had no block open but the outermost one. Where another stage is
generated, it has none. -/
def isOutside (v : Visit) : Bool := v.key.stage ≠ some .vertex || v.blocks.length ≤ 1

theorem firsts_cons : firsts id (v :: older) =
    (if v.IsFirst id older then [v] else []) ++ firsts id older := by
  rw [firsts]
  split <;> rfl

/-- Some visit of a node that is visited was the first. -/
theorem firsts_ne_nil {l : List Visit} (hv : v ∈ l) (hid : v.key.node = id) : firsts id l ≠ [] := by
  induction l generalizing v with
  | nil => cases hv
  | cons w older ih =>
    rw [firsts]
    split
    · exact List.cons_ne_nil _ _
    · next hw =>
      rcases List.mem_cons.1 hv with rfl | hv
      · -- a visit that was not the first had one before it
        have : ¬∀ w ∈ older.drop (older.length - v.since), w.key.node ≠ id := fun h => hw ⟨hid, h⟩
        push Not at this
        obtain ⟨u, hu, hid⟩ := this
        exact ih (List.mem_of_mem_drop hu) hid
      · exact ih hv hid

end Visit

namespace BuildState

variable {p : Plan} {id : NodeId} {n : String} {s s' s'' : BuildState} {ns ns' : List String}

/-- The visits of a node that came when none of them was answered. -/
def firsts (s : BuildState) (id : NodeId) : List Visit := Visit.firsts id s.visits

/-- A varying is written when some visit of it was answered, and the fragment program declares only
such ones. -/
structure Kept (id : NodeId) (s : BuildState) : Prop where
  written : Build.isWritten s id = true ↔ ∃ v ∈ s.visits, v.key.node = id
  declared : id ∈ (s.stages.get .fragment).varyings → ∃ v ∈ s.visits, v.key.node = id

/-- A name is none of another item than a varying, and the varying has no other one. -/
structure Owns (id : NodeId) (n : String) (s : BuildState) : Prop where
  only : ∀ i, n ∈ s.namesOf i → i = .varying id
  name : ∀ m ∈ s.namesOf (.varying id), m = n

theorem Owns.before (h : s'.Owns id n) (he : s.Enters p s') : s.Owns id n where
  only i hi := h.only i ((he.keep (List.ne_nil_of_mem hi)).symm ▸ hi)
  name m hm := h.name m ((he.keep (List.ne_nil_of_mem hm)).symm ▸ hm)

theorem Kept.of_same (h : s.Kept id) (hw : Build.isWritten s' id = Build.isWritten s id)
    (hv : s'.visits = s.visits)
    (hd : (s'.stages.get .fragment).varyings = (s.stages.get .fragment).varyings) : s'.Kept id := by
  refine ⟨?_, ?_⟩
  · rw [hw, hv]
    exact h.written
  · rw [hd, hv]
    exact h.declared

/-- A visit is logged; the varying is written then if it is one of the varying. -/
theorem Kept.log {v : Visit} (h : s.Kept id) (hv : s'.visits = v :: s.visits)
    (own : v.key.node = id → Build.isWritten s' id = true)
    (other : v.key.node ≠ id → Build.isWritten s' id = Build.isWritten s id ∧
      (id ∈ (s'.stages.get .fragment).varyings → id ∈ (s.stages.get .fragment).varyings)) :
    s'.Kept id := by
  by_cases hid : v.key.node = id
  · have visited : ∃ w ∈ s'.visits, w.key.node = id := ⟨v, hv ▸ .head _, hid⟩
    exact ⟨iff_of_true (own hid) visited, fun _ => visited⟩
  · obtain ⟨same, less⟩ := other hid
    have visits : (∃ w ∈ s'.visits, w.key.node = id) ↔ ∃ w ∈ s.visits, w.key.node = id := by
      simp [hv, hid]
    exact ⟨by rw [same, visits, h.written], fun hd => visits.2 (h.declared (less hd))⟩

/-- Between two states the vertex program writes the varying `n` once for each first visit of its
node, unless the statement belongs to no open block; these write `ns`. -/
structure Writes (p : Plan) (id : NodeId) (n : String) (ns : List String) (s s' : BuildState) :
    Prop where
  enters : s.Enters p s'
  blocks : ∀ t, (s'.stages.get t).openBlocks = (s.stages.get t).openBlocks
  visits : s.visits <:+ s'.visits
  kept : s.Kept id → s'.Kept id
  all : s'.Owns id n →
    (s'.stages.get .vertex).written.count n + ns.count n + (s.firsts id).length =
      (s.stages.get .vertex).written.count n + (s'.firsts id).length
  outside : s'.Owns id n →
    (s'.stages.get .vertex).writtenOutside.count n + (s.firsts id).countP Visit.isOutside =
      (s.stages.get .vertex).writtenOutside.count n + (s'.firsts id).countP Visit.isOutside

namespace Writes

theorem refl (s : BuildState) : s.Writes p id n [] s :=
  ⟨.refl s, fun _ => rfl, List.suffix_rfl, fun h => h, fun _ => rfl, fun _ => rfl⟩

theorem trans (h : s.Writes p id n ns s') (h' : s'.Writes p id n ns' s'') :
    s.Writes p id n (ns ++ ns') s'' where
  enters := h.enters.trans h'.enters
  blocks t := (h'.blocks t).trans (h.blocks t)
  visits := h.visits.trans h'.visits
  kept hk := h'.kept (h.kept hk)
  all ho := by
    have := h.all (ho.before h'.enters)
    have := h'.all ho
    rw [List.count_append]
    omega
  outside ho := by
    have := h.outside (ho.before h'.enters)
    have := h'.outside ho
    omega

/-- A change that neither visits nor states anything. -/
theorem of_lists (h : s.Lists p s') (hv : s'.visits = s.visits)
    (hw : Build.isWritten s' id = Build.isWritten s id) : s.Writes p id n [] s' := by
  have same : ∀ t, (s'.stages.get t).inner = (s.stages.get t).inner ∧
      (s'.stages.get t).outer = (s.stages.get t).outer ∧
      (s'.stages.get t).locals = (s.stages.get t).locals ∧
      (s'.stages.get t).varyings = (s.stages.get t).varyings := by
    intro t
    have body : s'.bodies t = s.bodies t := congrFun h.bodies t
    exact ⟨congrArg EntryPoint.inner body, congrArg EntryPoint.outer body,
      congrArg EntryPoint.locals body, congrArg EntryPoint.varyings body⟩
  obtain ⟨hi, ho, hl, -⟩ := same .vertex
  have firsts : s'.firsts id = s.firsts id := by
    unfold BuildState.firsts
    rw [hv]
  refine ⟨h.toEnters, fun t => ?_, hv ▸ List.suffix_rfl,
    fun hk => hk.of_same hw hv (same .fragment).2.2.2, fun _ => ?_, fun _ => ?_⟩
  · unfold StageBuild.openBlocks
    rw [(same t).1, (same t).2.1]
  · unfold StageBuild.written StageBuild.collect
    rw [hi, ho, hl, firsts]
    rfl
  · unfold StageBuild.writtenOutside
    rw [ho, hl, firsts]

/-- What was collected for one stage changes, but neither the varyings that the fragment program
declares nor the blocks that are open. -/
theorem modify {t : Stage} {f : StageBuild → StageBuild} (h : s.Writes p id n ns s')
    (hb : (f (s'.stages.get t)).openBlocks = (s'.stages.get t).openBlocks)
    (hv : ∀ b, (f b).varyings = b.varyings)
    (all : t = .vertex → (f (s'.stages.get t)).written.count n =
      (s'.stages.get t).written.count n + ns.count n)
    (none : t ≠ .vertex → ns = [])
    (outside : t = .vertex → (f (s'.stages.get t)).writtenOutside =
      (s'.stages.get t).writtenOutside) :
    s.Writes p id n [] { s' with stages := s'.stages.modify t f } where
  enters := h.enters.trans (.of_eq rfl rfl rfl rfl rfl)
  blocks u := by
    rw [← h.blocks u, PerStage.get_modify]
    split
    · next he => exact he ▸ hb
    · rfl
  visits := h.visits
  kept hk := (h.kept hk).of_same rfl rfl (s'.stages.map_get_modify t .fragment hv)
  all ho := by
    have balance := h.all (ho.before (p := p) (.of_eq rfl rfl rfl rfl rfl))
    rw [PerStage.get_modify]
    split
    · next he =>
      subst he
      rw [all rfl]
      exact balance
    · next he =>
      rw [none (Ne.symm he)] at balance
      exact balance
  outside ho := by
    have balance := h.outside (ho.before (p := p) (.of_eq rfl rfl rfl rfl rfl))
    rw [PerStage.get_modify]
    split
    · next he =>
      subst he
      rw [outside rfl]
      exact balance
    · exact balance

/-- A statement is added that does not write a varying itself. -/
theorem add {t : Stage} {st : Statement} (hw : st.written? = none)
    (h : s.Writes p id n (if t = .vertex then Statement.writtenIn st.blocks else []) s') :
    s.Writes p id n [] { s' with stages := s'.stages.modify t fun b => b.add st } := by
  refine h.modify StageBuild.openBlocks_add (fun b => ?_) (fun ht => ?_) (fun ht => if_neg ht)
    fun _ => ?_
  · unfold StageBuild.add
    cases b.inner <;> rfl
  · rw [if_pos ht, StageBuild.count_written_add, hw, Option.toList_none, List.count_nil, Nat.zero_add]
  · rw [StageBuild.writtenOutside_add, hw, Option.toList_none, ite_self, List.append_nil]

/-- A block is closed; its statements are handed over. -/
theorem closeBlock {t : Stage}
    (h : ({ s with stages := s.stages.modify t StageBuild.openBlock } : BuildState).Writes p id n
      [] s') :
    s.Writes p id n
      (if t = .vertex then Statement.writtenIn (s'.stages.get t).innerStatements else [])
      { s' with stages := s'.stages.modify t StageBuild.closeBlock } where
  enters := by
    have opened : s.Enters p { s with stages := s.stages.modify t StageBuild.openBlock } :=
      .of_eq rfl rfl rfl rfl rfl
    exact (opened.trans h.enters).trans (.of_eq rfl rfl rfl rfl rfl)
  blocks := PerStage.openBlocks_closed h.blocks
  visits := h.visits
  kept hk := by
    have opened := h.kept (hk.of_same rfl rfl (s.stages.map_get_modify t .fragment fun _ => rfl))
    exact opened.of_same rfl rfl (s'.stages.map_get_modify t .fragment fun _ => rfl)
  -- what the closed block wrote moves from the open blocks to the statements handed over
  all ho := by
    have balance := h.all (ho.before (p := p) (.of_eq rfl rfl rfl rfl rfl))
    rw [PerStage.get_modify] at balance ⊢
    by_cases he : t = .vertex
    · subst he
      rw [if_pos rfl, StageBuild.written_openBlock, List.count_nil, Nat.add_zero] at balance
      rw [if_pos rfl, if_pos rfl, StageBuild.count_written_closeBlock]
      exact balance
    · rw [if_neg (Ne.symm he)] at balance
      rw [if_neg (Ne.symm he), if_neg he]
      exact balance
  outside ho := by
    have balance := h.outside (ho.before (p := p) (.of_eq rfl rfl rfl rfl rfl))
    rw [PerStage.get_modify] at balance ⊢
    split at balance
    · next he =>
      rw [if_pos he]
      exact balance
    · next he =>
      rw [if_neg he]
      exact balance

/-- A visit is logged; if it is a first one, the varying is written. -/
theorem log {v : Visit} (h : s.Writes p id n [] s') (he : s'.Enters p s'')
    (hb : ∀ t, (s''.stages.get t).openBlocks = (s'.stages.get t).openBlocks)
    (hv : s''.visits = v :: s'.visits) (hk : s'.Kept id → s''.Kept id)
    (all : s''.Owns id n → (s''.stages.get .vertex).written.count n =
      (s'.stages.get .vertex).written.count n + if v.IsFirst id s'.visits then 1 else 0)
    (outside : s''.Owns id n → (s''.stages.get .vertex).writtenOutside.count n =
      (s'.stages.get .vertex).writtenOutside.count n +
        if v.IsFirst id s'.visits ∧ v.isOutside = true then 1 else 0) :
    s.Writes p id n [] s'' where
  enters := h.enters.trans he
  blocks t := (hb t).trans (h.blocks t)
  visits := hv ▸ h.visits.trans (List.suffix_cons v _)
  kept := hk ∘ h.kept
  all ho := by
    have balance := h.all (ho.before he)
    rw [all ho, BuildState.firsts.eq_1 s'', hv, Visit.firsts_cons, List.length_append]
    split
    · rw [List.length_singleton]
      unfold BuildState.firsts at balance ⊢
      omega
    · exact balance.trans (by rw [List.length_nil, Nat.zero_add]; rfl)
  outside ho := by
    have balance := h.outside (ho.before he)
    rw [outside ho, BuildState.firsts.eq_1 s'', hv, Visit.firsts_cons, List.countP_append]
    unfold BuildState.firsts at balance ⊢
    by_cases hf : v.IsFirst id s'.visits
    · rw [if_pos hf, List.countP_singleton]
      simp only [hf, true_and]
      omega
    · rw [if_neg hf, if_neg fun h => hf h.1, List.countP_nil, Nat.add_zero, Nat.zero_add]
      exact balance

end Writes

end BuildState

end ShaderGraph
