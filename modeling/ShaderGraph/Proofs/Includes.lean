import ShaderGraph.Proofs.Collections
import ShaderGraph.Proofs.Tables

/-!
# Native functions that include others

Functions are read after those they include. `IncludesFirst` says so of the table of functions;
it holds throughout a build. The functions on a way through the includes are all different, and a
function that is declared comes after those that it includes, so neither reading a function nor
declaring it gets too deep.
-/

namespace ShaderGraph

/-- The functions of a table are functions of the graph, each there once and after those that it
includes. -/
structure IncludesFirst (g : Graph) (fs : OrderedMap FunctionId FunctionEntry) : Prop where
  nodup : fs.keys.Nodup
  known : ∀ id ∈ fs.keys, (g.function? id).isSome
  first : ∀ before e after, fs.entries = before ++ e :: after →
    ∀ i ∈ e.2.includes, i ∈ before.map Prod.fst

/-- Different functions of a graph are at most as many as it has. -/
theorem length_le_functions {g : Graph} {ids : List FunctionId} (hn : ids.Nodup)
    (hk : ∀ id ∈ ids, (g.function? id).isSome) : ids.length ≤ g.functions.size := by
  refine length_le_of_nodup (f := FunctionId.index) (fun a b h => ?_) hn fun id hid => ?_
  · exact congrArg FunctionId.mk h
  · obtain ⟨f, hf⟩ := Option.isSome_iff_exists.1 (hk id hid)
    exact (Array.getElem?_eq_some_iff.1 hf).1

namespace IncludesFirst

variable {g : Graph} {fs : OrderedMap FunctionId FunctionEntry}

theorem empty : IncludesFirst g .empty where
  nodup := List.nodup_nil
  known _ h := by cases h
  first before e after h := by
    have := congrArg List.length h
    simp [OrderedMap.empty] at this

/-- A new function goes to the end, after those that it includes. -/
theorem put (h : IncludesFirst g fs) {id : FunctionId} {f : FunctionEntry}
    (hid : (g.function? id).isSome) (hnew : id ∉ fs.keys) (hi : ∀ i ∈ f.includes, i ∈ fs.keys) :
    IncludesFirst g (fs.put id f) := by
  have entries : (fs.put id f).entries = fs.entries ++ [(id, f)] :=
    OrderedMap.putIn_of_notMem hnew
  have keys : (fs.put id f).keys = fs.keys ++ [id] := by
    rw [OrderedMap.keys, entries, List.map_append]
    rfl
  refine ⟨?_, ?_, ?_⟩
  · rw [keys]
    exact List.nodup_append.2 ⟨h.nodup, List.nodup_singleton _, by
      rintro a ha b hb rfl
      rw [List.mem_singleton] at hb
      exact hnew (hb ▸ ha)⟩
  · intro id' hid'
    rw [keys, List.mem_append, List.mem_singleton] at hid'
    rcases hid' with hid' | rfl
    · exact h.known id' hid'
    · exact hid
  · intro before e after he
    rw [entries] at he
    -- either the new function is `e`, or `e` was there before
    rcases List.eq_nil_or_concat after with rfl | ⟨after', last, rfl⟩
    · obtain ⟨hb, he⟩ := List.append_inj' he rfl
      rw [List.singleton_inj] at he
      rw [← he, ← hb]
      exact hi
    · rw [List.concat_eq_append, ← List.cons_append, ← List.append_assoc] at he
      exact h.first before e after' (List.append_inj' he rfl).1

end IncludesFirst

namespace Build

variable {deep : Prop} {env : Env}

/-- What reading functions changes: the table of functions grows, and some functions stay
unread. -/
structure Reads (g : Graph) (unread : List FunctionId) (s s' : BuildState) : Prop where
  core : s'.core = { s.core with functions := s'.functions }
  table : IncludesFirst g s'.functions
  grow : s.functions.entries <+: s'.functions.entries
  unread : ∀ id ∈ unread, s'.functions.get? id = none

theorem Reads.trans {g : Graph} {unread : List FunctionId} {s s' s'' : BuildState}
    (h : Reads g unread s s') (h' : Reads g unread s' s'') : Reads g unread s s'' := by
  refine ⟨?_, h'.table, h.grow.trans h'.grow, h'.unread⟩
  rw [h'.core, h.core]

/-- A function that was read stays as it is. -/
theorem Reads.keep {g : Graph} {unread : List FunctionId} {s s' : BuildState}
    (h : Reads g unread s s') {id : FunctionId} {f : FunctionEntry}
    (hf : s.functions.get? id = some f) : s'.functions.get? id = some f := by
  obtain ⟨more, hm⟩ := h.grow
  unfold OrderedMap.get? at *
  rw [← hm, OrderedMap.find?_append, hf, Option.some_or]

theorem Reads.self {g : Graph} {unread : List FunctionId} {s s' : BuildState}
    (h : Reads g unread s s') : Reads g unread s' s' :=
  ⟨rfl, h.table, List.prefix_rfl, h.unread⟩

/-- Fewer functions that stay unread. -/
theorem Reads.mono {g : Graph} {unread unread' : List FunctionId} {s s' : BuildState}
    (h : Reads g unread s s') (hu : ∀ id ∈ unread', id ∈ unread) : Reads g unread' s s' :=
  ⟨h.core, h.table, h.grow, fun id hid => h.unread id (hu id hid)⟩

/-- Reading one function after the other, when each of them can be read. -/
theorem readAll_reads (ids : List FunctionId) {path : List FunctionId} {s : BuildState}
    {read : FunctionId → Build FunctionEntry} (h : Reads env.plan.graph path s s)
    (step : ∀ i s', Reads env.plan.graph path s s' →
      Meets (read i) env s' (Law.tables deep).ends fun f s'' =>
        Reads env.plan.graph path s' s'' ∧ s''.functions.get? i = some f) :
    Meets (ids.mapM read) env s (Law.tables deep).ends fun _ s' =>
      Reads env.plan.graph path s s' ∧ ∀ i ∈ ids, i ∈ s'.functions.keys := by
  refine meets_mapM (fun done _ s' => Reads env.plan.graph path s s' ∧
    ∀ i ∈ done, i ∈ s'.functions.keys) ⟨h, fun i hi => nomatch hi⟩ ?_
  intro done _ i s' _ hi
  refine (step i s' hi.1).imp ?_
  rintro f s'' ⟨hr, hget⟩
  refine ⟨hi.1.trans hr, fun j hj => OrderedMap.get?_isSome_iff.1 ?_⟩
  rcases List.mem_append.1 hj with hj | hj
  · obtain ⟨f', hf'⟩ := Option.isSome_iff_exists.1 (OrderedMap.get?_isSome_iff.2 (hi.2 j hj))
    rw [hr.keep hf']
    rfl
  · rw [List.mem_singleton.1 hj, hget]
    rfl

/-- A function that was read goes to the table when those that it includes are there. -/
theorem enterFunction_reads {native : NativeFunction} {id : FunctionId} {path : List FunctionId}
    {s : BuildState} (hg : env.plan.graph.function? id = some native) (hc : id ∉ path)
    (h : Reads env.plan.graph (id :: path) s s)
    (hi : ∀ i ∈ native.includes, i ∈ s.functions.keys) (includes : List String) :
    Meets (do
        let f ← ofExcept (Native.Declaration.read native.dialect native.source)
        let entry ← functionEntry native f includes
        modify fun s => { s with functions := s.functions.put id entry }
        return entry) env s (Law.tables deep).ends fun f s' =>
      Reads env.plan.graph path s s' ∧ s'.functions.get? id = some f := by
  rw [meets_bind, meets_ofExcept]
  split
  · next f _ =>
    rw [meets_bind]
    have entry : (Law.tables deep).Keeps env (functionEntry native f includes) :=
      functionEntry_tables _ _ _
    refine ((entry s trivial).and (functionEntry_renders native f includes)).imp ?_
    rintro e s' ⟨hcore, he, -⟩
    have same : s'.functions = s.functions := core_functions hcore
    have hnew : id ∉ s'.functions.keys := by
      intro hid
      rw [same, ← OrderedMap.get?_isSome_iff, h.unread id (.head _)] at hid
      cases hid
    refine ⟨⟨?_, ?_, ?_, ?_⟩, ?_⟩
    · show { s'.core with functions := s'.functions.put id e } = _
      rw [hcore]
    · refine IncludesFirst.put (same ▸ h.table) (by rw [hg]; rfl) hnew ?_
      rw [same, he.includes]
      exact hi
    · rw [← same]
      exact ⟨[(id, e)], (OrderedMap.putIn_of_notMem hnew).symm⟩
    · intro j hj
      show (s'.functions.put id e).get? j = none
      rw [OrderedMap.get?_put, same, if_neg, h.unread j (.tail _ hj)]
      rintro rfl
      exact hc hj
    · show (s'.functions.put id e).get? id = some e
      rw [OrderedMap.get?_put, if_pos rfl]
  · exact rfl

/-- A function is read after those that it includes, and this does not get too deep. `path` holds
the functions that include it. -/
theorem registerFunctionIn_reads {s : BuildState} {fuel : Nat} {path : List FunctionId}
    {id : FunctionId} (hk : ∀ j ∈ path, (env.plan.graph.function? j).isSome)
    (hn : path.Nodup) (h : Reads env.plan.graph path s s)
    (hf : env.plan.graph.functions.size < fuel + path.length) :
    Meets (registerFunctionIn fuel path id) env s (Law.tables deep).ends fun f s' =>
      Reads env.plan.graph path s s' ∧ s'.functions.get? id = some f := by
  induction fuel generalizing path id s with
  | zero =>
    -- the functions on the path are different ones: the path is longer than the graph has functions
    have := length_le_functions hn hk
    omega
  | succ fuel ih =>
    rw [registerFunctionIn, meets_bind, meets_get]
    cases hid : s.functions.get? id with
    | some f => exact ⟨h, hid⟩
    | none =>
      refine (meets_ite _ _ _).2 ⟨fun _ => rfl, fun hc => ?_⟩
      have hc : id ∉ path := by simpa using hc
      rw [meets_bind, meets_read]
      cases hg : env.plan.graph.function? id with
      | none => exact rfl
      | some native =>
        have hk' : ∀ j ∈ id :: path, (env.plan.graph.function? j).isSome := by
          intro j hj
          rcases List.mem_cons.1 hj with rfl | hj
          · rw [hg]
            rfl
          · exact hk j hj
        -- while the includes are read, `id` is on the path and stays unread
        have h' : Reads env.plan.graph (id :: path) s s := by
          refine ⟨h.core, h.table, h.grow, fun j hj => ?_⟩
          rcases List.mem_cons.1 hj with rfl | hj
          · exact hid
          · exact h.unread j hj
        dsimp only
        rw [meets_bind]
        have hf' : env.plan.graph.functions.size < fuel + (id :: path).length := by
          rw [List.length_cons]
          omega
        have includes := readAll_reads native.includes h' fun i s' hr =>
          ih hk' (List.nodup_cons.2 ⟨hc, hn⟩) hr.self hf'
        refine includes.imp ?_
        rintro included s' ⟨hr, hi⟩
        refine (enterFunction_reads hg hc hr.self hi (included.map FunctionEntry.source)).imp ?_
        rintro f s'' ⟨hr', hget⟩
        exact ⟨(hr.mono fun j hj => .tail _ hj).trans hr', hget⟩

theorem meets_registerFunction (s : BuildState) (id : FunctionId) (ends : Failure → Prop)
    (post : FunctionEntry → BuildState → Prop) :
    Meets (registerFunction id) env s ends post ↔
      Meets (registerFunctionIn (env.plan.graph.functions.size + 2) [] id) env s ends post := by
  unfold registerFunction includeDepth
  rw [meets_bind, meets_bind, meets_read, meets_pure]

theorem registerFunction_reads {s : BuildState} (id : FunctionId)
    (ht : IncludesFirst env.plan.graph s.functions) :
    Meets (registerFunction id) env s (Law.tables deep).ends fun f s' =>
      Reads env.plan.graph [] s s' ∧ s'.functions.get? id = some f := by
  have h : Reads env.plan.graph [] s s :=
    ⟨rfl, ht, List.prefix_rfl, fun i hi => nomatch hi⟩
  rw [meets_registerFunction]
  refine registerFunctionIn_reads (fun i hi => nomatch hi) List.nodup_nil h ?_
  rw [List.length_nil]
  omega

/-- A function that was read is found without a change. -/
theorem registerFunction_of_get? {s : BuildState} {id : FunctionId} {f : FunctionEntry}
    (h : s.functions.get? id = some f) (ends : Failure → Prop)
    (post : FunctionEntry → BuildState → Prop) :
    Meets (registerFunction id) env s ends post ↔ post f s := by
  rw [meets_registerFunction, registerFunctionIn, meets_bind, meets_get, h]
  exact meets_pure f post

/-- The table of functions has a function at a place below `bound`. -/
def IsBelow (fs : OrderedMap FunctionId FunctionEntry) (id : FunctionId) (bound : Nat) : Prop :=
  ∃ before f after, fs.entries = before ++ (id, f) :: after ∧ before.length < bound

theorem isBelow_of_get? {g : Graph} {fs : OrderedMap FunctionId FunctionEntry} {id : FunctionId}
    {f : FunctionEntry} {bound : Nat} (ht : IncludesFirst g fs) (h : fs.get? id = some f)
    (hb : g.functions.size ≤ bound) : IsBelow fs id bound := by
  obtain ⟨before, after, he⟩ := List.append_of_mem (OrderedMap.mem_of_find? h)
  refine ⟨before, f, after, he, ?_⟩
  have le := length_le_functions ht.nodup ht.known
  rw [OrderedMap.keys, List.length_map, he, List.length_append, List.length_cons] at le
  omega

/-- What a function includes comes before it. -/
theorem isBelow_of_includes {g : Graph} {fs : OrderedMap FunctionId FunctionEntry}
    {id i : FunctionId} {f : FunctionEntry} {bound : Nat} (ht : IncludesFirst g fs)
    (h : fs.get? id = some f) (hb : IsBelow fs id (bound + 1)) (hi : i ∈ f.includes) :
    IsBelow fs i bound := by
  obtain ⟨before, f', after, he, hlt⟩ := hb
  have hget : fs.get? id = some f' := by
    unfold OrderedMap.get?
    rw [he]
    exact OrderedMap.find?_of_nodup (he ▸ ht.nodup)
  cases h.symm.trans hget
  obtain ⟨⟨i', f'⟩, hmem, rfl⟩ := List.mem_map.1 (ht.first before (id, f) after he i hi)
  obtain ⟨before', after', rfl⟩ := List.append_of_mem hmem
  refine ⟨before', f', after' ++ (id, f) :: after, by rw [he, List.append_assoc]; rfl, ?_⟩
  rw [List.length_append, List.length_cons] at hlt
  omega

theorem IsBelow.grow {g : Graph} {unread : List FunctionId} {s s' : BuildState}
    {id : FunctionId} {bound : Nat} (h : IsBelow s.functions id bound)
    (hr : Reads g unread s s') : IsBelow s'.functions id bound := by
  obtain ⟨before, f, after, he, hlt⟩ := h
  obtain ⟨more, hm⟩ := hr.grow
  refine ⟨before, f, after ++ more, ?_, hlt⟩
  rw [← hm, he, List.append_assoc]
  rfl

/-- A step that only fills tables reads no functions. -/
theorem Reads.ofTables {g : Graph} {s s' : BuildState} (ht : IncludesFirst g s.functions)
    (h : s'.core = s.core) : Reads g [] s s' := by
  have same : s'.functions = s.functions := core_functions h
  refine ⟨?_, same ▸ ht, same ▸ List.prefix_rfl, fun i hi => nomatch hi⟩
  rw [h, same]
  rfl

/-- A function is declared after those that it includes, and this does not get too deep. -/
theorem useFunctionIn_reads (hp : ¬deep → env.plan.LayoutsFounded) {s : BuildState} {fuel : Nat}
    {id : FunctionId} (ht : IncludesFirst env.plan.graph s.functions)
    (hf : env.plan.graph.functions.size < fuel ∨ IsBelow s.functions id fuel) :
    Meets (useFunctionIn fuel id) env s (Law.tables deep).ends fun _ s' =>
      Reads env.plan.graph [] s s' := by
  induction fuel generalizing id s with
  | zero =>
    rcases hf with hf | ⟨_, _, _, _, hf⟩
    · omega
    · omega
  | succ fuel ih =>
    have h : Reads env.plan.graph [] s s := ⟨rfl, ht, List.prefix_rfl, fun i hi => nomatch hi⟩
    -- the first function is below the bound since all are, an included one since it comes earlier
    have entry : Meets (registerFunction id) env s (Law.tables deep).ends fun f s' =>
        Reads env.plan.graph [] s s' ∧ s'.functions.get? id = some f ∧
          IsBelow s'.functions id (fuel + 1) := by
      rcases hf with hf | hf
      · refine (registerFunction_reads id ht).imp ?_
        rintro f s' ⟨hr, hget⟩
        exact ⟨hr, hget, isBelow_of_get? hr.table hget (by omega)⟩
      · obtain ⟨before, f, after, he, hlt⟩ := hf
        have hget : s.functions.get? id = some f := by
          unfold OrderedMap.get?
          rw [he]
          exact OrderedMap.find?_of_nodup (he ▸ ht.nodup)
        rw [registerFunction_of_get? hget]
        exact ⟨h, hget, before, f, after, he, hlt⟩
    rw [useFunctionIn, meets_bind]
    refine entry.imp ?_
    rintro f s₁ ⟨hr, hget, hb⟩
    rw [meets_bind, meets_here, meets_ite]
    refine ⟨fun _ => hr, fun _ => ?_⟩
    have includes : Meets (f.includes.forM (useFunctionIn fuel)) env s₁ (Law.tables deep).ends
        fun _ s' => Reads env.plan.graph [] s₁ s' := by
      refine meets_forM (fun _ s' => Reads env.plan.graph [] s₁ s') hr.self ?_
      intro _ i s' hi hr'
      have below := (isBelow_of_includes hr.table hget hb hi).grow hr'
      exact (ih hr'.table (.inr below)).imp fun _ s'' => hr'.trans
    rw [forIn_eq_forM, meets_bind]
    refine includes.imp fun _ s₂ hr₂ => ?_
    have rest : (Law.tables deep).Keeps env (do
        for p in f.inputs do markType p.valueType
        markType f.result
        modifyHere fun b => { b with functions := appendNew b.functions id }) := by
      have mark : ∀ t, (Law.tables deep).Keeps env (markType t) :=
        fun t => markType_tables fun hd => (hp hd).grounded t
      refine .bind (.forIn fun p _ => mark _) fun _ => .bind (mark _) fun _ => ?_
      exact tables_modifyHere (fun _ => rfl) fun _ => rfl
    refine (rest s₂ trivial).imp fun _ s' hcore => ?_
    exact (hr.trans hr₂).trans (.ofTables hr₂.table hcore)

theorem useFunction_reads (hp : ¬deep → env.plan.LayoutsFounded) {s : BuildState} (id : FunctionId)
    (ht : IncludesFirst env.plan.graph s.functions) :
    Meets (useFunction id) env s (Law.tables deep).ends fun _ s' =>
      Reads env.plan.graph [] s s' := by
  unfold useFunction includeDepth
  rw [meets_bind, meets_bind, meets_read, meets_pure]
  exact useFunctionIn_reads hp ht (.inl (by omega))

end Build

end ShaderGraph
