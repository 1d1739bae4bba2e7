import ShaderGraph.Proofs.Allocation
import ShaderGraph.Proofs.Typing

/-!
# Items and their names

An `Item` is something that programs declare outside of their entry points. It takes its names when
it is entered, once and for all, and they were free before (`BuildState.Enters`); so different
items have different names (`BuildState.Named`). A native function that is translated may be called
by another name than the one it took (`BuildState.calledAs`): one with a `_` more, which need not
have been free. `Law.listing` says this of all that inputs and native functions do, and that the
statements of the entry points stay as they are.
-/

namespace ShaderGraph

/-- Something that programs declare outside of their entry points. -/
inductive Item where
  | group (name : String)
  /-- A member of a uniform block. -/
  | member (key : UniformKey)
  | texture (name : String)
  | storage (name : String)
  | meshAttribute (name : String)
  | varying (id : NodeId)
  | function (id : FunctionId)
deriving DecidableEq, Repr

/-- An item is entered together with another: a uniform with its group, a function with those that
it includes. -/
inductive Plan.Needs (p : Plan) : Item → Item → Prop
  | group (key : UniformKey) : Needs p (.member key) (.group key.group)
  | include {f j : FunctionId} {native : NativeFunction} (hf : p.graph.function? f = some native)
      (hj : j ∈ native.includes) : Needs p (.function f) (.function j)

/-- What a stage collects for its entry point. -/
structure EntryPoint where
  /-- The names that are in use. -/
  names : NameTable
  nextBlock : Nat
  inner : List Block
  outer : Block
  locals : List Statement
  /-- The varyings that the program declares. -/
  varyings : List NodeId
  properties : OrderedMap String (ValueType × String)
  output : Option Expr

/-- What a stage has collected for its entry point. -/
def StageBuild.body (b : StageBuild) : EntryPoint :=
  ⟨b.names, b.nextBlock, b.inner, b.outer, b.locals, b.varyings, b.properties, b.output⟩

/-- Between two tables some names are taken that were free. -/
def NameTable.Takes (t t' : NameTable) (ns : List String) : Prop :=
  (∀ n, t'.isUsed n = true ↔ t.isUsed n = true ∨ n ∈ ns) ∧ ∀ n ∈ ns, t.isUsed n = false

theorem NameTable.Takes.one {t : NameTable} {a : String} (ha : t.isUsed a = false) :
    t.Takes (t.reserve a) [a] := by
  refine ⟨fun n => ?_, fun n hn => List.mem_singleton.1 hn ▸ ha⟩
  rw [isUsed_reserve, Bool.or_eq_true, beq_iff_eq, List.mem_singleton, or_comm]

theorem NameTable.Takes.two {t : NameTable} {a b : String} (ha : t.isUsed a = false)
    (hb : (t.reserve a).isUsed b = false) : t.Takes ((t.reserve a).reserve b) [a, b] := by
  refine ⟨fun n => ?_, fun n hn => ?_⟩
  · rw [(one hb).1, (one ha).1, or_assoc, ← List.mem_append, List.singleton_append]
  · rw [isUsed_reserve, Bool.or_eq_false_iff] at hb
    rcases List.mem_pair.1 hn with rfl | rfl
    · exact ha
    · exact hb.2

namespace BuildState

/-- The names that an item took. -/
def namesOf (s : BuildState) : Item → List String
  | .group name => (s.groups.get? name).elim [] fun g => [g.block, g.inst]
  | .member key => (s.uniforms.get? key).elim [] fun u => [u.member]
  | .texture name => (s.textures.get? name).elim [] fun t => [t.name, t.sampler]
  | .storage name => (s.storage.get? name).elim [] fun b => [b.name, b.block]
  | .meshAttribute name => (s.attributes.get? name).elim [] fun a => [a.name]
  | .varying id => (s.varyings.get? id).elim [] fun v => [v.name]
  | .function id => (s.functions.get? id).elim [] fun f => [f.claimed]

/-- The name that the programs call a native function by. -/
def calledAs (s : BuildState) (id : FunctionId) : Option String :=
  (s.functions.get? id).map FunctionEntry.name

/-- The names that an item has in the programs, with the one that it took. -/
def spelledAs (s : BuildState) (i : Item) : List String :=
  match i with
  | .function id => s.namesOf i ++ (s.calledAs id).toList
  | _ => s.namesOf i

/-- What the stages collect for their entry points. -/
def bodies (s : BuildState) (t : Stage) : EntryPoint := (s.stages.get t).body

/-- The names of items are taken, different items took different ones, the members of a block are
uniforms of its group, items come with those that they need, the varyings are those of the plan, no
function is entered twice, and a renamed one has a `_` more than the name that it took. -/
structure Named (p : Plan) (s : BuildState) : Prop where
  taken : ∀ i, ∀ n ∈ s.spelledAs i, s.globals.isUsed n = true
  distinct : ∀ {i j n}, n ∈ s.namesOf i → n ∈ s.namesOf j → i = j
  members : ∀ {group g}, s.groups.get? group = some g → ∀ m ∈ g.members,
    ∃ name, m.1 ∈ s.namesOf (.member ⟨name, group⟩)
  needs : ∀ {i j}, p.Needs i j → s.namesOf i ≠ [] → s.namesOf j ≠ []
  sources : VaryingsFrom p s.varyings
  functions : s.functions.keys.Nodup
  renamed : ∀ {id f}, s.functions.get? id = some f → f.name = f.claimed ∨ f.name = f.claimed ++ "_"

/-- Items may be entered between two states; their names were free. -/
structure Enters (p : Plan) (s s' : BuildState) : Prop where
  taken : ∀ n, s.globals.isUsed n = true → s'.globals.isUsed n = true
  items : ∀ i, s'.namesOf i = s.namesOf i ∨
    s.namesOf i = [] ∧ ∀ n ∈ s'.namesOf i, s.globals.isUsed n = false
  functions : ∀ {id f}, s.functions.get? id = some f → s'.functions.get? id = some f
  /-- Only items take names. -/
  spent : ∀ n, s'.globals.isUsed n = true → s.globals.isUsed n = true ∨ ∃ i, n ∈ s'.spelledAs i
  named : s.Named p → s'.Named p

/-- Items may be entered between two states; no statements are added and no varyings declared. -/
structure Lists (p : Plan) (s s' : BuildState) : Prop extends s.Enters p s' where
  bodies : s'.bodies = s.bodies

variable {p : Plan} {s s' s'' : BuildState}

theorem namesOf_subset_spelledAs (i : Item) : s.namesOf i ⊆ s.spelledAs i := by
  cases i with
  | function id => exact List.subset_append_left _ _
  | _ => exact List.Subset.refl _

theorem mem_spelledAs_function {id : FunctionId} {n : String} :
    n ∈ s.spelledAs (.function id) ↔ n ∈ s.namesOf (.function id) ∨ s.calledAs id = some n := by
  rw [spelledAs, List.mem_append, Option.mem_toList]

/-- An item with no names has none in the programs. -/
theorem spelledAs_eq_nil {i : Item} (hi : s.namesOf i = []) : s.spelledAs i = [] := by
  cases i with
  | function id =>
    rw [spelledAs, hi, List.nil_append, calledAs]
    rw [namesOf] at hi
    cases h : s.functions.get? id with
    | none => rfl
    | some f => rw [h] at hi; cases hi
  | _ => exact hi

/-- The names of an item stay. -/
theorem Enters.keep (h : s.Enters p s') {i : Item} (hi : s.namesOf i ≠ []) :
    s'.namesOf i = s.namesOf i :=
  (h.items i).resolve_right fun hn => hi hn.1

theorem Enters.entered (h : s.Enters p s') {i : Item} (hi : s.namesOf i ≠ []) :
    s'.namesOf i ≠ [] :=
  h.keep hi ▸ hi

theorem Enters.called (h : s.Enters p s') {id : FunctionId} {n : String}
    (hn : s.calledAs id = some n) : s'.calledAs id = some n := by
  obtain ⟨f, hf, rfl⟩ := Option.map_eq_some_iff.1 hn
  exact Option.map_eq_some_iff.2 ⟨f, h.functions hf, rfl⟩

/-- The names in the programs are those of before where the names are and the functions. -/
theorem spelledAs_of_same {i : Item} (hi : s'.namesOf i = s.namesOf i)
    (hf : ∀ id, i = .function id → s'.functions.get? id = s.functions.get? id) :
    s'.spelledAs i = s.spelledAs i := by
  cases i with
  | function id => rw [spelledAs, spelledAs, hi, calledAs, calledAs, hf id rfl]
  | _ => exact hi

/-- The names that an item has in the programs stay. -/
theorem Enters.keepSpelled (h : s.Enters p s') {i : Item} (hi : s.namesOf i ≠ []) :
    s'.spelledAs i = s.spelledAs i := by
  refine spelledAs_of_same (h.keep hi) ?_
  rintro id rfl
  cases hf : s.functions.get? id with
  | none => exact absurd (by rw [namesOf, hf, Option.elim]) hi
  | some f => exact h.functions hf

theorem Enters.spelled (h : s.Enters p s') {i : Item} {n : String} (hn : n ∈ s.spelledAs i) :
    n ∈ s'.spelledAs i :=
  (h.keepSpelled fun hi => List.ne_nil_of_mem hn (spelledAs_eq_nil hi)) ▸ hn

theorem Enters.refl (s : BuildState) : s.Enters p s :=
  ⟨fun _ h => h, fun _ => .inl rfl, id, fun _ h => .inl h, id⟩

theorem Enters.trans (h : s.Enters p s') (h' : s'.Enters p s'') : s.Enters p s'' where
  taken n hn := h'.taken n (h.taken n hn)
  items i := by
    rcases h'.items i with same | ⟨none, free⟩
    · rw [same]
      exact h.items i
    · rcases h.items i with same' | ⟨none', -⟩
      · refine .inr ⟨same' ▸ none, fun n hn => ?_⟩
        by_contra hused
        have := h.taken n (by simpa using hused)
        rw [free n hn] at this
        cases this
      · refine .inr ⟨none', fun n hn => ?_⟩
        by_contra hused
        have := h.taken n (by simpa using hused)
        rw [free n hn] at this
        cases this
  functions hf := h'.functions (h.functions hf)
  spent n hn := by
    rcases h'.spent n hn with hn | entered
    · exact (h.spent n hn).imp_right fun ⟨i, hi⟩ => ⟨i, h'.spelled hi⟩
    · exact .inr entered
  named hs := h'.named (h.named hs)

theorem Lists.refl (s : BuildState) : s.Lists p s := ⟨.refl s, rfl⟩

theorem Lists.trans (h : s.Lists p s') (h' : s'.Lists p s'') : s.Lists p s'' :=
  ⟨h.toEnters.trans h'.toEnters, h'.bodies.trans h.bodies⟩

/-- A change that enters nothing. -/
theorem Enters.of_same (hg : s'.globals = s.globals)
    (hi : ∀ i, s'.namesOf i = s.namesOf i)
    (hm : ∀ group g', s'.groups.get? group = some g' → ∃ g, s.groups.get? group = some g ∧
      g'.members = g.members)
    (hv : VaryingsFrom p s.varyings → VaryingsFrom p s'.varyings)
    (hf : s'.functions = s.functions) : s.Enters p s' where
  taken _ hn := hg ▸ hn
  items i := .inl (hi i)
  functions h := hf ▸ h
  spent _ hn := .inl (hg ▸ hn)
  named hs := by
    have spelled : ∀ i, s'.spelledAs i = s.spelledAs i :=
      fun i => spelledAs_of_same (hi i) fun _ _ => by rw [hf]
    refine ⟨fun i n hn => hg ▸ hs.taken i n (spelled i ▸ hn), fun hn hn' => ?_,
      fun hg m hmem => ?_, fun hij hne => ?_, hv hs.sources, hf ▸ hs.functions,
      fun h => hs.renamed (hf ▸ h)⟩
    · rw [hi] at hn hn'
      exact hs.distinct hn hn'
    · obtain ⟨g, hg', hmembers⟩ := hm _ _ hg
      rw [hmembers] at hmem
      obtain ⟨name, hname⟩ := hs.members hg' m hmem
      exact ⟨name, hi _ ▸ hname⟩
    · rw [hi] at hne ⊢
      exact hs.needs hij hne

/-- A change that the tables of items do not see. -/
theorem Enters.of_eq (hu : s'.globals = s.globals) (hi : s'.namesOf = s.namesOf)
    (hg : s'.groups = s.groups) (hv : s'.varyings = s.varyings)
    (hf : s'.functions = s.functions) : s.Enters p s' :=
  .of_same hu (fun i => congrFun hi i) (fun _ g h => ⟨g, hg ▸ h, rfl⟩) (fun h => hv ▸ h) hf

/-- One item is entered. The names that it takes were free; one that it is called by besides need
not have been. -/
theorem Enters.enterSpelled (i : Item)
    (hu : ∀ n, s'.globals.isUsed n = true ↔ s.globals.isUsed n = true ∨ n ∈ s'.spelledAs i)
    (hn : ∀ n ∈ s'.namesOf i, s.globals.isUsed n = false) (hi : s.namesOf i = [])
    (ho : ∀ j, j ≠ i → s'.namesOf j = s.namesOf j)
    (hm : ∀ group g', s'.groups.get? group = some g' → ∀ m ∈ g'.members,
      (∃ g, s.groups.get? group = some g ∧ m ∈ g.members) ∨
        ∃ name, m.1 ∈ s'.namesOf (.member ⟨name, group⟩))
    (hd : ∀ j, p.Needs i j → s.namesOf j ≠ [])
    (hv : VaryingsFrom p s.varyings → VaryingsFrom p s'.varyings)
    (hf : ∀ id, .function id ≠ i → s'.functions.get? id = s.functions.get? id)
    (hr : ∀ id f, .function id = i → s'.functions.get? id = some f →
      f.name = f.claimed ∨ f.name = f.claimed ++ "_")
    (hk : s.functions.keys.Nodup → s'.functions.keys.Nodup) : s.Enters p s' := by
  have taken : ∀ n, s.globals.isUsed n = true → s'.globals.isUsed n = true :=
    fun n hn => (hu n).2 (.inl hn)
  have items : ∀ j, s'.namesOf j = s.namesOf j ∨
      s.namesOf j = [] ∧ ∀ n ∈ s'.namesOf j, s.globals.isUsed n = false := by
    intro j
    by_cases h : j = i
    · subst h
      exact .inr ⟨hi, hn⟩
    · exact .inl (ho j h)
  have keep : ∀ j, s.namesOf j ≠ [] → s'.namesOf j = s.namesOf j :=
    fun j hj => (items j).resolve_right fun h => hj h.1
  have functions : ∀ {id f}, s.functions.get? id = some f → s'.functions.get? id = some f := by
    intro id f h
    have other : .function id ≠ i := by
      rintro rfl
      rw [namesOf, h] at hi
      cases hi
    rwa [hf id other]
  have spent := fun n hn => ((hu n).1 hn).imp_right fun hmem => (⟨i, hmem⟩ : ∃ i, n ∈ s'.spelledAs i)
  refine ⟨taken, items, functions, spent, fun hs => ?_⟩
  -- a free name is not one of an item that was there
  have other : ∀ {j n}, n ∈ s'.namesOf i → n ∈ s'.namesOf j → i = j := by
    intro j n hni hnj
    by_contra h
    rw [ho j (Ne.symm h)] at hnj
    have used := hs.taken j n (namesOf_subset_spelledAs j hnj)
    rw [hn n hni] at used
    cases used
  refine ⟨fun j n hmem => ?_, fun {j k n} hj hk => ?_, fun {group g'} hg m hmem => ?_,
    fun {j k} hjk hne => ?_, hv hs.sources, hk hs.functions, fun {id f} h => ?_⟩
  · by_cases h : j = i
    · subst h
      exact (hu n).2 (.inr hmem)
    · rw [spelledAs_of_same (ho j h) fun id hid => hf id (hid ▸ h)] at hmem
      exact taken n (hs.taken j n hmem)
  · by_cases hji : j = i
    · exact hji ▸ other (hji ▸ hj) hk
    · by_cases hki : k = i
      · exact hki ▸ (other (hki ▸ hk) hj).symm
      · rw [ho j hji] at hj
        rw [ho k hki] at hk
        exact hs.distinct hj hk
  · rcases hm group g' hg m hmem with ⟨g, hg', hmem'⟩ | hname
    · obtain ⟨name, hname⟩ := hs.members hg' m hmem'
      have entered : s.namesOf (.member ⟨name, group⟩) ≠ [] := List.ne_nil_of_mem hname
      exact ⟨name, (keep _ entered).symm ▸ hname⟩
    · exact hname
  · have entered : s.namesOf k ≠ [] := by
      by_cases h : j = i
      · exact hd k (h ▸ hjk)
      · exact hs.needs hjk (ho j h ▸ hne)
    exact (keep _ entered).symm ▸ entered
  · by_cases hid : .function id = i
    · exact hr id f hid h
    · exact hs.renamed (hf id hid ▸ h)

/-- An item that is no function is entered, under names that were free. -/
theorem Enters.enter (i : Item) {ns : List String} (hns : s'.namesOf i = ns)
    (ht : s.globals.Takes s'.globals ns) (hi : s.namesOf i = [])
    (ho : ∀ j, j ≠ i → s'.namesOf j = s.namesOf j)
    (hm : ∀ group g', s'.groups.get? group = some g' → ∀ m ∈ g'.members,
      (∃ g, s.groups.get? group = some g ∧ m ∈ g.members) ∨
        ∃ name, m.1 ∈ s'.namesOf (.member ⟨name, group⟩))
    (hd : ∀ j, p.Needs i j → s.namesOf j ≠ [])
    (hv : VaryingsFrom p s.varyings → VaryingsFrom p s'.varyings)
    (hf : s'.functions = s.functions) : s.Enters p s' := by
  subst hns
  obtain ⟨hu, hn⟩ := ht
  have absent : ∀ id, .function id = i → s'.functions.get? id = none := by
    rintro id rfl
    rw [namesOf] at hi
    rw [hf]
    cases h : s.functions.get? id with
    | none => rfl
    | some f => rw [h] at hi; cases hi
  have spelled : s'.spelledAs i = s'.namesOf i := by
    cases i with
    | function id => rw [spelledAs, calledAs, absent id rfl, Option.map_none, Option.toList,
        List.append_nil]
    | _ => rfl
  refine .enterSpelled i (fun n => spelled ▸ hu n) hn hi ho hm hd hv (fun _ _ => by rw [hf])
    (fun id f hid h => ?_) fun h => hf ▸ h
  rw [absent id hid] at h
  cases h

end BuildState

/-! ### What was read of functions -/

/-- What is entered for a native function: `f` was read from its source, the functions that it
includes are in the table, and it is written with their texts. -/
structure FunctionEntry.Writes (e : FunctionEntry) (p : Plan)
    (table : FunctionId → Option FunctionEntry) (native : NativeFunction) (f : Native.Declaration) :
    Prop where
  read : Native.Declaration.read native.dialect native.source = .ok f
  rendered : ∃ included : List FunctionEntry, native.includes.map table = included.map some ∧
    e.Renders p native f (included.map FunctionEntry.source)

/-- What was found in a table is found in one that holds as much. -/
theorem map_some_mono {α β : Type} {table table' : α → Option β} {xs : List α} {ys : List β}
    (h : xs.map table = ys.map some) (grows : ∀ x y, table x = some y → table' x = some y) :
    xs.map table' = ys.map some := by
  rw [← h]
  refine List.map_congr_left fun x hx => ?_
  have mem : table x ∈ ys.map some := h ▸ List.mem_map_of_mem hx
  obtain ⟨y, -, hy⟩ := List.mem_map.1 mem
  rw [← hy, grows x y hy.symm]

namespace FunctionEntry.Writes

variable {e : FunctionEntry} {p : Plan} {table table' : FunctionId → Option FunctionEntry}
  {native : NativeFunction} {f : Native.Declaration}

theorem mono (h : e.Writes p table native f)
    (grows : ∀ id e, table id = some e → table' id = some e) : e.Writes p table' native f := by
  obtain ⟨included, known, renders⟩ := h.rendered
  exact ⟨h.read, included, map_some_mono known grows, renders⟩

theorem includes (h : e.Writes p table native f) : e.includes = native.includes :=
  let ⟨_, _, renders⟩ := h.rendered
  renders.includes

theorem name (h : e.Writes p table native f) :
    e.name = e.claimed ∨ e.name = e.claimed ++ "_" :=
  let ⟨_, _, renders⟩ := h.rendered
  renders.name

end FunctionEntry.Writes

/-- The entries of native functions hold what was read from their sources, under names near those
that the functions have there. -/
def BuildState.Transcribed (p : Plan) (s : BuildState) : Prop :=
  ∀ id e, s.functions.get? id = some e → ∃ native f, p.graph.function? id = some native ∧
    e.Writes p s.functions.get? native f ∧ s.globals.Near f.name e.claimed

theorem BuildState.Transcribed.of_taken {p : Plan} {s s' : BuildState} (h : s.Transcribed p)
    (hf : s'.functions = s.functions)
    (ht : ∀ n, s.globals.isUsed n = true → s'.globals.isUsed n = true) : s'.Transcribed p := by
  intro id e he
  obtain ⟨native, f, known, writes, near⟩ := h id e (hf ▸ he)
  exact ⟨native, f, known, hf ▸ writes, near.mono ht⟩

/-- A function is entered as it was read. -/
theorem BuildState.Transcribed.put {p : Plan} {s s' : BuildState} {id : FunctionId} {e : FunctionEntry}
    {native : NativeFunction} {f : Native.Declaration} (h : s.Transcribed p)
    (hf : s'.functions = s.functions.put id e) (hnew : s.functions.get? id = none)
    (hg : p.graph.function? id = some native) (writes : e.Writes p s.functions.get? native f)
    (near : s'.globals.Near f.name e.claimed)
    (ht : ∀ n, s.globals.isUsed n = true → s'.globals.isUsed n = true) : s'.Transcribed p := by
  have grows : ∀ j e', s.functions.get? j = some e' → s'.functions.get? j = some e' := by
    intro j e' he'
    have other : j ≠ id := by
      rintro rfl
      cases hnew.symm.trans he'
    rw [hf, OrderedMap.get?_put, if_neg other, he']
  intro j e' he'
  rw [hf] at he'
  rcases OrderedMap.get?_of_put he' with ⟨rfl, rfl⟩ | ⟨-, he'⟩
  · exact ⟨native, f, hg, writes.mono grows, near⟩
  · obtain ⟨native', f', known, writes', near'⟩ := h j e' he'
    exact ⟨native', f', known, writes'.mono grows, near'.mono ht⟩

/-- What keeps to the lists of items. -/
def Law.listing (p : Plan) : Law where
  inv env _ := env.plan = p
  rel _ := BuildState.Lists p
  ends _ := True
  refl := .refl
  trans := .trans
  mono hi _ := hi
  loops _ hi := hi
  ordinary _ := trivial
  located _ := trivial

end ShaderGraph
