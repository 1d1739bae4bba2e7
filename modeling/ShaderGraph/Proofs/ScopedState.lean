import Mathlib.Data.List.Pairwise
import ShaderGraph.Proofs.Items
import ShaderGraph.Proofs.Scoped
import ShaderGraph.Proofs.Scopes

/-!
# Names in scope

The locals in scope at a place of an entry point are those that the open blocks declare, the
counters of the loops around and the properties. `StageBuild.Sound` says that these are different
names. `StageBuild.Adds` is about what a step does to a stage: the innermost block gets statements
that are in order, and nothing else happens to the open blocks. `StageBuild.Leaves` is about the
statements of a block that was closed.

`BuildState.Tidy` says that the names in scope are different ones, and that each name which is
remembered for a node is declared in its block as long as that is open. `BuildState.Grows` is about
two states of generation: the innermost block of a stage got statements that are in order, and
nothing else happened to the open blocks.
-/

namespace ShaderGraph

/-! ## The entry point of a stage -/

open Statement

theorem PerStage.modify_modify {α : Type} (stages : PerStage α) (t : Stage) (f g : α → α) :
    (stages.modify t f).modify t g = stages.modify t (g ∘ f) := by
  cases t <;> rfl

/-- The blocks with some statements added to the innermost one. -/
def Block.extend (new : List Statement) : List Block → List Block
  | [] => []
  | block :: rest => { block with statements := block.statements ++ new } :: rest

theorem Block.extend_nil (blocks : List Block) : Block.extend [] blocks = blocks := by
  cases blocks with
  | nil => rfl
  | cons block rest => rw [extend, List.append_nil]

theorem Block.extend_extend (new new' : List Statement) (blocks : List Block) :
    Block.extend new' (Block.extend new blocks) = Block.extend (new ++ new') blocks := by
  cases blocks with
  | nil => rfl
  | cons block rest => rw [extend, extend, extend, List.append_assoc]

theorem Block.map_id_extend (new : List Statement) (blocks : List Block) :
    (Block.extend new blocks).map Block.id = blocks.map Block.id := by
  cases blocks <;> rfl

namespace StageBuild

/-- The open blocks, innermost first. -/
def stack (b : StageBuild) : List Block := b.inner ++ [b.outer]

/-- The names that declarations of the open blocks declare. -/
def visible (b : StageBuild) : List String := b.stack.flatMap fun block => bound block.statements

/-- The names of the properties of a stage. -/
def propertyNames (b : StageBuild) : List String := b.properties.values.map Prod.snd

/-- The declaration of a property at the top of the entry point. -/
def propertyDecl (v : ValueType × String) : Statement := .declare v.2 v.1 none .mutable none

variable {b b' b'' : StageBuild} {known known' : Reference → Prop} {cs ns ns' : List String}
  {new : List Statement} {n : String}

theorem mem_propertyNames_of_get? {name : String} {v : ValueType × String}
    (h : b.properties.get? name = some v) : v.2 ∈ b.propertyNames :=
  List.mem_map_of_mem (List.mem_map_of_mem (OrderedMap.mem_of_find? h))

theorem stack_ne_nil (b : StageBuild) : b.stack ≠ [] := by
  unfold stack
  simp

theorem openBlocks_eq (b : StageBuild) : b.openBlocks = b.stack.map Block.id := by
  unfold openBlocks stack
  rw [List.map_append, List.map_singleton]

theorem stack_add (b : StageBuild) (st : Statement) :
    (b.add st).stack = Block.extend [st] b.stack := by
  unfold stack add
  cases b.inner <;> rfl

theorem frame_add (b : StageBuild) (st : Statement) : (b.add st).names = b.names ∧
    (b.add st).nextBlock = b.nextBlock ∧ (b.add st).properties = b.properties ∧
      (b.add st).locals = b.locals ∧ (b.add st).output = b.output ∧
        (b.add st).groups = b.groups := by
  unfold add
  cases b.inner <;> exact ⟨rfl, rfl, rfl, rfl, rfl, rfl⟩

theorem stack_openBlock (b : StageBuild) : b.openBlock.stack = ⟨⟨b.nextBlock⟩, []⟩ :: b.stack := rfl

/-- A block that was opened is closed again. -/
theorem closeBlock_stack {block : Block} {rest : List Block} (h : b.stack = block :: rest)
    (hr : rest ≠ []) : b.closeBlock.stack = rest ∧ b.innerStatements = block.statements := by
  unfold stack closeBlock innerStatements at *
  cases hb : b.inner with
  | nil =>
    rw [hb] at h
    exact absurd (List.cons.inj h).2.symm hr
  | cons block' rest' =>
    rw [hb] at h
    obtain ⟨rfl, rfl⟩ := List.cons.inj h
    exact ⟨rfl, rfl⟩

theorem mem_visible_of_extend (h : b'.stack = Block.extend new b.stack) :
    n ∈ b'.visible ↔ n ∈ bound new ++ b.visible := by
  unfold visible
  rw [h]
  cases hb : b.stack with
  | nil => exact absurd hb b.stack_ne_nil
  | cons block rest =>
    rw [Block.extend, List.flatMap_cons, List.flatMap_cons, bound_append]
    simp only [List.mem_append]
    tauto

theorem currentBlock_of_stack {block : Block} {rest : List Block} (h : b.stack = block :: rest) :
    b.currentBlock = block.id := by
  unfold stack at h
  unfold currentBlock
  cases hb : b.inner with
  | nil =>
    rw [hb] at h
    exact congrArg Block.id (List.cons.inj h).1
  | cons block' rest' =>
    rw [hb] at h
    exact congrArg Block.id (List.cons.inj h).1

theorem visible_of_stack (h : b'.stack = b.stack) : b'.visible = b.visible := by
  unfold visible
  rw [h]

theorem stack_of_body (h : b'.body = b.body) : b'.stack = b.stack := by
  have inner : b'.inner = b.inner := congrArg EntryPoint.inner h
  have outer : b'.outer = b.outer := congrArg EntryPoint.outer h
  unfold stack
  rw [inner, outer]

/-- The names in scope are different ones and in use, the open blocks are different ones, and the
properties are declared at the top of the entry point. -/
structure Sound (cs : List String) (b : StageBuild) : Prop where
  nodup : (b.visible ++ (cs ++ b.propertyNames)).Nodup
  used : ∀ n ∈ b.visible ++ (cs ++ b.propertyNames), b.names.isUsed n = true
  ids : (b.stack.map Block.id).Nodup
  below : ∀ block ∈ b.stack, block.id.index < b.nextBlock
  tops : b.locals = b.properties.values.map propertyDecl

namespace Sound

/-- Only what a stage collects for its entry point matters. -/
theorem of_body (h : Sound cs b) (hb : b'.body = b.body) : Sound cs b' := by
  have stack := stack_of_body hb
  have names : b'.names = b.names := congrArg EntryPoint.names hb
  have blocks : b'.nextBlock = b.nextBlock := congrArg EntryPoint.nextBlock hb
  have properties : b'.properties = b.properties := congrArg EntryPoint.properties hb
  have locals : b'.locals = b.locals := congrArg EntryPoint.locals hb
  obtain ⟨nodup, used, ids, below, tops⟩ := h
  rw [← visible_of_stack stack, propertyNames, ← properties] at nodup used
  exact ⟨nodup, names ▸ used, stack ▸ ids, blocks ▸ stack ▸ below, properties ▸ locals ▸ tops⟩

/-- Fewer loops may be around. -/
theorem sublist {cs' : List String} (h : Sound cs b) (hs : cs'.Sublist cs) : Sound cs' b := by
  have fewer : (b.visible ++ (cs' ++ b.propertyNames)).Sublist
      (b.visible ++ (cs ++ b.propertyNames)) :=
    (hs.append_right _).append_left _
  exact ⟨h.nodup.sublist fewer, fun n hn => h.used n (fewer.subset hn), h.ids, h.below, h.tops⟩

/-- A name that was free is not in scope. -/
theorem notMem (h : Sound cs b) (free : b.names.isUsed n = false) :
    n ∉ b.visible ++ (cs ++ b.propertyNames) := by
  intro hn
  rw [h.used n hn] at free
  cases free

/-- A counter comes into scope. -/
theorem cons (h : Sound cs b) (hn : n ∉ b.visible ++ (cs ++ b.propertyNames))
    (hu : b.names.isUsed n = true) : Sound (n :: cs) b := by
  have all : (b.visible ++ (n :: cs ++ b.propertyNames)).Perm
      (n :: (b.visible ++ (cs ++ b.propertyNames))) := List.perm_middle
  refine ⟨all.nodup_iff.2 (List.nodup_cons.2 ⟨hn, h.nodup⟩), fun m hm => ?_, h.ids, h.below, h.tops⟩
  rcases List.mem_cons.1 (all.mem_iff.1 hm) with rfl | hm
  · exact hu
  · exact h.used m hm

theorem openBlock (h : Sound cs b) : Sound cs b.openBlock where
  nodup := h.nodup
  used := h.used
  ids := by
    rw [stack_openBlock, List.map_cons]
    refine List.nodup_cons.2 ⟨fun hmem => ?_, h.ids⟩
    obtain ⟨block, hblock, same⟩ := List.mem_map.1 hmem
    have below := h.below block hblock
    rw [same] at below
    exact absurd below (Nat.lt_irrefl _)
  below block hblock := by
    rw [stack_openBlock] at hblock
    rcases List.mem_cons.1 hblock with rfl | hblock
    · exact Nat.lt_succ_self _
    · exact Nat.lt_succ_of_lt (h.below block hblock)
  tops := h.tops

end Sound

/-- Names are taken and properties declared; `ns` are names that new declarations declare. They and
the new properties were free. -/
structure Moves (ns : List String) (b b' : StageBuild) : Prop where
  fresh : ∀ n ∈ ns, b.names.isUsed n = false ∧ b'.names.isUsed n = true
  once : ns.Nodup
  used : ∀ n, b.names.isUsed n = true → b'.names.isUsed n = true
  blocks : b.nextBlock ≤ b'.nextBlock
  properties : ∃ more, b'.properties.values = b.properties.values ++ more ∧
    b'.locals = b.locals ++ more.map propertyDecl ∧ (more.map Prod.snd).Nodup ∧
      ∀ n ∈ more.map Prod.snd, b.names.isUsed n = false ∧ b'.names.isUsed n = true ∧ n ∉ ns

namespace Moves

/-- Nothing that matters changes, or names are taken only. -/
theorem of_same (hu : ∀ n, b.names.isUsed n = true → b'.names.isUsed n = true)
    (hn : b.nextBlock ≤ b'.nextBlock) (hp : b'.properties = b.properties)
    (hl : b'.locals = b.locals) :
    Moves [] b b' where
  fresh _ h := nomatch h
  once := .nil
  used := hu
  blocks := hn
  properties := ⟨[], by rw [hp, List.append_nil], by rw [hl, List.map_nil, List.append_nil], .nil,
    fun _ h => nomatch h⟩

theorem refl (b : StageBuild) : Moves [] b b := of_same (fun _ h => h) (Nat.le_refl _) rfl rfl

theorem of_body (h : b'.body = b.body) : Moves [] b b' := by
  have names : b'.names = b.names := congrArg EntryPoint.names h
  have blocks : b'.nextBlock = b.nextBlock := congrArg EntryPoint.nextBlock h
  have properties : b'.properties = b.properties := congrArg EntryPoint.properties h
  have locals : b'.locals = b.locals := congrArg EntryPoint.locals h
  exact of_same (fun _ hn => names ▸ hn) (Nat.le_of_eq blocks.symm) properties locals

/-- What is used later was free before unless it was used then. -/
theorem free (h : Moves ns b b') (hn : b'.names.isUsed n = false) : b.names.isUsed n = false := by
  by_contra hused
  have := h.used n (by simpa using hused)
  rw [hn] at this
  cases this

theorem trans (h : Moves ns b b') (h' : Moves ns' b' b'') : Moves (ns ++ ns') b b'' := by
  obtain ⟨more, values, locals, nodup, fresh⟩ := h.properties
  obtain ⟨more', values', locals', nodup', fresh'⟩ := h'.properties
  -- what was taken first is not free later
  have apart : ∀ {n}, b'.names.isUsed n = true → b'.names.isUsed n = false → False := by
    intro n hn hn'
    rw [hn] at hn'
    cases hn'
  refine ⟨fun n hn => ?_, List.nodup_append.2 ⟨h.once, h'.once, ?_⟩,
    fun n hn => h'.used n (h.used n hn),
    Nat.le_trans h.blocks h'.blocks, more ++ more', ?_, ?_, ?_, fun n hn => ?_⟩
  · rcases List.mem_append.1 hn with hn | hn
    · exact ⟨(h.fresh n hn).1, h'.used n (h.fresh n hn).2⟩
    · exact ⟨h.free (h'.fresh n hn).1, (h'.fresh n hn).2⟩
  · rintro n hn _ hn' rfl
    exact apart (h.fresh n hn).2 (h'.fresh n hn').1
  · rw [values', values, List.append_assoc]
  · rw [locals', locals, List.map_append, List.append_assoc]
  · rw [List.map_append]
    refine List.nodup_append.2 ⟨nodup, nodup', ?_⟩
    rintro n hn _ hn' rfl
    exact apart (fresh n hn).2.1 (fresh' n hn').1
  · rw [List.map_append, List.mem_append] at hn
    rw [List.mem_append, not_or]
    rcases hn with hn | hn
    · refine ⟨(fresh n hn).1, h'.used n (fresh n hn).2.1, (fresh n hn).2.2, fun hn' => ?_⟩
      exact apart (fresh n hn).2.1 (h'.fresh n hn').1
    · refine ⟨h.free (fresh' n hn).1, (fresh' n hn).2.1, fun hn' => ?_, (fresh' n hn).2.2⟩
      exact apart (h.fresh n hn').2 (fresh' n hn).1

/-- Fewer of the new names may be told. -/
theorem sublist (h : Moves ns b b') (hs : ns'.Sublist ns) : Moves ns' b b' := by
  obtain ⟨more, values, locals, nodup, fresh⟩ := h.properties
  exact ⟨fun n hn => h.fresh n (hs.subset hn), h.once.sublist hs, h.used, h.blocks, more, values,
    locals, nodup, fun n hn => ⟨(fresh n hn).1, (fresh n hn).2.1,
      fun hn' => (fresh n hn).2.2 (hs.subset hn')⟩⟩

/-- A property stays, and a new one was free. -/
theorem mem_propertyNames (h : Moves ns b b') (hn : n ∈ b'.propertyNames) :
    n ∈ b.propertyNames ∨ b.names.isUsed n = false := by
  obtain ⟨more, values, -, -, fresh⟩ := h.properties
  rw [propertyNames, values, List.map_append, List.mem_append] at hn
  exact hn.imp_right fun hn => (fresh n hn).1

theorem propertyNames_subset (h : Moves ns b b') : b.propertyNames ⊆ b'.propertyNames := by
  obtain ⟨more, values, -⟩ := h.properties
  unfold propertyNames
  rw [values, List.map_append]
  exact List.subset_append_left _ _

/-- What does not concern the names. -/
theorem move (h : Moves ns b b') (hn : b''.names = b'.names) (hb : b''.nextBlock = b'.nextBlock)
    (hp : b''.properties = b'.properties) (hl : b''.locals = b'.locals) : Moves ns b b'' where
  fresh n hmem := hn ▸ h.fresh n hmem
  once := h.once
  used n hmem := hn ▸ h.used n hmem
  blocks := hb ▸ h.blocks
  properties := by
    rw [hp, hl, hn]
    exact h.properties

/-- A statement does not concern the names. -/
theorem add (h : Moves ns b b') (st : Statement) : Moves ns b (b'.add st) := by
  obtain ⟨names, blocks, properties, locals, -⟩ := b'.frame_add st
  exact h.move names blocks properties locals

/-- The names in scope stay different ones, when `ns` are those that the open blocks declare anew. -/
theorem sound (h : Moves ns b b') (hb : Sound cs b) (hd : b'.visible.Perm (ns ++ b.visible))
    (hi : b'.stack.map Block.id = b.stack.map Block.id) : Sound cs b' := by
  obtain ⟨more, values, locals, nodup, fresh⟩ := h.properties
  have names : b'.propertyNames = b.propertyNames ++ more.map Prod.snd := by
    rw [propertyNames, values, List.map_append]
    rfl
  have all : (b'.visible ++ (cs ++ b'.propertyNames)).Perm
      ((b.visible ++ (cs ++ b.propertyNames)) ++ (ns ++ more.map Prod.snd)) := by
    rw [names]
    refine (hd.append_right _).trans ?_
    simp only [List.append_assoc]
    refine (@List.perm_append_comm _ ns _).trans ?_
    simp only [List.append_assoc]
    exact ((List.perm_append_comm.append_left _).append_left _).append_left _
  have old : ∀ n ∈ b.visible ++ (cs ++ b.propertyNames), n ∉ ns ++ more.map Prod.snd := by
    intro n hn hn'
    have used := hb.used n hn
    rcases List.mem_append.1 hn' with hn' | hn'
    · rw [(h.fresh n hn').1] at used
      cases used
    · rw [(fresh n hn').1] at used
      cases used
  refine ⟨all.nodup_iff.2 (List.nodup_append.2
    ⟨hb.nodup, List.nodup_append.2 ⟨h.once, nodup, ?_⟩, ?_⟩),
    fun n hn => ?_, hi ▸ hb.ids, fun block hblock => ?_, ?_⟩
  · rintro n hn _ hn' rfl
    exact (fresh n hn').2.2 hn
  · rintro n hn _ hn' rfl
    exact old n hn hn'
  · rcases List.mem_append.1 (all.mem_iff.1 hn) with hn | hn
    · exact h.used n (hb.used n hn)
    · rcases List.mem_append.1 hn with hn | hn
      · exact (h.fresh n hn).2
      · exact (fresh n hn).2.1
  · have open' : block.id ∈ b.stack.map Block.id := hi ▸ List.mem_map_of_mem hblock
    obtain ⟨old, hold, same⟩ := List.mem_map.1 open'
    exact same ▸ Nat.lt_of_lt_of_le (hb.below old hold) h.blocks
  · rw [locals, values, List.map_append, hb.tops]

/-- A name that was taken first is freed in the end. -/
theorem release (h : Moves ns { b with names := b.names.reserve n } b')
    (free : b.names.isUsed n = false) : Moves ns b { b' with names := b'.names.release n } := by
  obtain ⟨more, values, locals, nodup, fresh⟩ := h.properties
  have before : ∀ m, (b.names.reserve n).isUsed m = false → m ≠ n ∧ b.names.isUsed m = false := by
    intro m hm
    rwa [NameTable.isUsed_reserve, Bool.or_eq_false_iff, beq_eq_false_iff_ne] at hm
  have after : ∀ m, m ≠ n → b'.names.isUsed m = true → (b'.names.release n).isUsed m = true := by
    intro m hne hm
    rw [NameTable.isUsed_release, hm, Bool.and_true, bne_iff_ne]
    exact hne
  refine ⟨fun m hm => ?_, h.once, fun m hm => ?_, h.blocks, more, values, locals, nodup,
    fun m hm => ?_⟩
  · obtain ⟨hne, was⟩ := before m (h.fresh m hm).1
    exact ⟨was, after m hne (h.fresh m hm).2⟩
  · have hne : m ≠ n := by
      rintro rfl
      rw [free] at hm
      cases hm
    refine after m hne (h.used m ?_)
    rw [NameTable.isUsed_reserve, hm, Bool.or_true]
  · obtain ⟨hne, was⟩ := before m (fresh m hm).1
    exact ⟨was, after m hne (fresh m hm).2.1, (fresh m hm).2.2⟩

end Moves

/-- The innermost block gets statements that are in order. -/
def Adds (known : Reference → Prop) (cs : List String) (b b' : StageBuild) : Prop :=
  ∃ new, Scoped known (b.visible ++ cs) new ∧ Moves (boundIn new) b b' ∧
    b'.stack = Block.extend new b.stack

/-- Statements that are in order are handed over; the open blocks stay as they are. -/
structure Leaves (known : Reference → Prop) (cs : List String) (ss : List Statement)
    (b b' : StageBuild) : Prop where
  refer : Scoped known (b.visible ++ cs) ss
  moves : Moves (boundIn ss) b b'
  stack : b'.stack = b.stack

namespace Adds

theorem of_moves (h : Moves [] b b') (hs : b'.stack = b.stack) : Adds known cs b b' :=
  ⟨[], .nil, h, hs.trans (Block.extend_nil _).symm⟩

theorem of_body (h : b'.body = b.body) : Adds known cs b b' :=
  of_moves (.of_body h) (stack_of_body h)

theorem mono (h : Adds known cs b b') (hk : ∀ r, known r → known' r) : Adds known' cs b b' := by
  obtain ⟨new, refer, moves, stack⟩ := h
  exact ⟨new, refer.mono hk fun _ => .rfl, moves, stack⟩

theorem trans (h : Adds known cs b b') (h' : Adds known cs b' b'') : Adds known cs b b'' := by
  obtain ⟨new, refer, moves, stack⟩ := h
  obtain ⟨new', refer', moves', stack'⟩ := h'
  refine ⟨new ++ new', refer.append (refer'.mono (fun _ hr => hr) fun n => ?_), ?_, ?_⟩
  · rw [← List.append_assoc, List.mem_append, List.mem_append (t := cs),
      mem_visible_of_extend stack]
  · exact boundIn_append new new' ▸ moves.trans moves'
  · rw [stack', stack, Block.extend_extend]

theorem used (h : Adds known cs b b') : ∀ n, b.names.isUsed n = true → b'.names.isUsed n = true :=
  h.choose_spec.2.1.used

theorem blocks (h : Adds known cs b b') : b.nextBlock ≤ b'.nextBlock := h.choose_spec.2.1.blocks

theorem propertyNames_subset (h : Adds known cs b b') : b.propertyNames ⊆ b'.propertyNames :=
  h.choose_spec.2.1.propertyNames_subset

theorem mem_propertyNames (h : Adds known cs b b') (hn : n ∈ b'.propertyNames) :
    n ∈ b.propertyNames ∨ b.names.isUsed n = false :=
  h.choose_spec.2.1.mem_propertyNames hn

/-- What is declared stays declared, and what is declared anew was free. -/
theorem visible_subset (h : Adds known cs b b') : b.visible ⊆ b'.visible := by
  obtain ⟨new, -, -, stack⟩ := h
  exact fun n hn => (mem_visible_of_extend stack).2 (List.mem_append_right _ hn)

theorem mem_visible (h : Adds known cs b b') (hn : n ∈ b'.visible) :
    n ∈ b.visible ∨ b.names.isUsed n = false := by
  obtain ⟨new, -, moves, stack⟩ := h
  rcases List.mem_append.1 ((mem_visible_of_extend stack).1 hn) with hn | hn
  · exact .inr (moves.fresh n (bound_subset_boundIn new hn)).1
  · exact .inl hn

theorem map_id_stack (h : Adds known cs b b') : b'.stack.map Block.id = b.stack.map Block.id := by
  obtain ⟨new, -, -, stack⟩ := h
  rw [stack, Block.map_id_extend]

/-- The statements of an open block stay in it. -/
theorem mem_stack (h : Adds known cs b b') {block : Block} (hb : block ∈ b'.stack) :
    ∃ old ∈ b.stack, old.id = block.id ∧ old.statements ⊆ block.statements := by
  obtain ⟨new, -, -, stack⟩ := h
  rw [stack] at hb
  cases hs : b.stack with
  | nil => exact absurd hs b.stack_ne_nil
  | cons old rest =>
    rw [hs, Block.extend] at hb
    rcases List.mem_cons.1 hb with rfl | hb
    · exact ⟨old, .head _, rfl, List.subset_append_left _ _⟩
    · exact ⟨block, .tail _ hb, rfl, fun _ h => h⟩

theorem sound (h : Adds known cs b b') (hb : Sound cs b) : Sound cs b' := by
  have ids := h.map_id_stack
  obtain ⟨new, -, moves, stack⟩ := h
  refine (moves.sublist (bound_sublist_boundIn new)).sound hb ?_ ids
  unfold visible
  rw [stack]
  cases hs : b.stack with
  | nil => exact absurd hs b.stack_ne_nil
  | cons block rest =>
    rw [Block.extend, List.flatMap_cons, List.flatMap_cons, bound_append, ← List.append_assoc]
    exact List.perm_append_comm.append_right _

end Adds

namespace Adds

variable {st : Statement} {ss : List Statement}

/-- A statement is added that is in order, with the blocks that it holds. -/
theorem add (moves : Moves (boundIn [st]) b b') (stack : b'.stack = b.stack)
    (hs : Scoped known (b.visible ++ cs) [st]) : Adds known cs b (b'.add st) :=
  ⟨[st], hs, moves.add st, (stack_add b' st).trans (stack ▸ rfl)⟩

/-- A loop is added whose counter was free and is free again. -/
theorem loop {counter : String} {type : ValueType} {start stop : Expr} {condition : BinaryOp}
    {step : Float} {b₁ b₂ : StageBuild} (hb : Sound cs b) (free : b.names.isUsed counter = false)
    (h : Adds known cs { b with names := b.names.reserve counter } b₁)
    (hl : Leaves known (counter :: cs) ss b₁ b₂) (hstart : start.Refers known (b₁.visible ++ cs))
    (hstop : stop.Refers known (b₁.visible ++ cs)) :
    Adds known cs b ({ b₂ with names := b₂.names.release counter }.add
      (.loop counter type start condition stop step ss)) := by
  have fresh : counter ∉ b₁.visible ++ cs := by
    intro hn
    have outside := hb.notMem free
    rcases List.mem_append.1 hn with hn | hn
    · rcases h.mem_visible hn with hn | free'
      · exact outside (List.mem_append_left _ hn)
      · simp at free'
    · exact outside (List.mem_append_right _ (List.mem_append_left _ hn))
  obtain ⟨new, refer, moves, stack⟩ := h
  have refer : Scoped known (b.visible ++ cs) new := refer
  have inner : Scoped known (counter :: (b₁.visible ++ cs)) ss :=
    hl.refer.mono (fun _ hr => hr) fun n => by
      simp only [List.mem_cons, List.mem_append]
      exact or_left_comm
  have last : Scoped known (bound new ++ (b.visible ++ cs))
      [.loop counter type start condition stop step ss] := by
    refine Scoped.mono (.loop fresh hstart hstop inner .nil) (fun _ hr => hr) fun n => ?_
    rw [← List.append_assoc, List.mem_append, List.mem_append (t := cs),
      mem_visible_of_extend stack]
    rfl
  have names : boundIn (new ++ [.loop counter type start condition stop step ss]) =
      boundIn new ++ boundIn ss := by
    rw [boundIn_append]
    exact congrArg (boundIn new ++ ·) (List.append_nil _)
  refine ⟨new ++ [.loop counter type start condition stop step ss], refer.append last, ?_, ?_⟩
  · rw [names]
    exact ((moves.trans hl.moves).release free).add _
  · have outer : b₂.stack = Block.extend new b.stack := hl.stack.trans stack
    have same : StageBuild.stack { b₂ with names := b₂.names.release counter } = b₂.stack := rfl
    rw [stack_add, same, outer, Block.extend_extend]

end Adds

namespace Leaves

variable {ss ss' : List Statement}

theorem mono (h : Leaves known cs ss b b') (hk : ∀ r, known r → known' r) :
    Leaves known' cs ss b b' :=
  ⟨h.refer.mono hk fun _ => .rfl, h.moves, h.stack⟩

theorem sound (h : Leaves known cs ss b b') (hb : Sound cs b) : Sound cs b' := by
  refine (h.moves.sublist (List.nil_sublist _)).sound hb ?_ (h.stack ▸ rfl)
  rw [visible_of_stack h.stack]
  exact .refl _

/-- A block that was opened and filled is closed. -/
theorem of_openBlock (h : Adds known cs b.openBlock b') :
    Leaves known cs b'.innerStatements b b'.closeBlock := by
  obtain ⟨new, refer, moves, stack⟩ := h
  obtain ⟨closed, held⟩ := closeBlock_stack (stack.trans rfl) b.stack_ne_nil
  rw [List.nil_append] at held
  have opened : Moves [] b b.openBlock := .of_same (fun _ hn => hn) (Nat.le_succ _) rfl rfl
  rw [held]
  exact ⟨refer, (opened.trans moves).move rfl rfl rfl rfl, closed⟩

end Leaves

/-- What is known of names and blocks stays so. -/
structure Retains (b b' : StageBuild) : Prop where
  used : ∀ n, b.names.isUsed n = true → b'.names.isUsed n = true
  blocks : b.nextBlock ≤ b'.nextBlock
  /-- A block that is open is new, or it was open and holds what it held. -/
  stack : ∀ block ∈ b'.stack, b.nextBlock ≤ block.id.index ∨
    ∃ old ∈ b.stack, old.id = block.id ∧ old.statements ⊆ block.statements
  properties : b.propertyNames ⊆ b'.propertyNames
  groups : b.groups ⊆ b'.groups
  output : b'.output = b.output

namespace Retains

theorem of_adds (h : Adds known cs b b') (hg : b.groups ⊆ b'.groups) (ho : b'.output = b.output) :
    b.Retains b' :=
  ⟨h.used, h.blocks, fun _ hblock => .inr (h.mem_stack hblock), h.propertyNames_subset, hg, ho⟩

theorem of_body (h : b'.body = b.body) (hg : b.groups ⊆ b'.groups) : b.Retains b' := by
  have adds : Adds (fun _ => True) [] b b' := .of_body h
  exact .of_adds adds hg (congrArg EntryPoint.output h)

theorem refl (b : StageBuild) : b.Retains b := .of_body rfl (List.Subset.refl _)

theorem trans (h : b.Retains b') (h' : b'.Retains b'') : b.Retains b'' where
  used n hn := h'.used n (h.used n hn)
  blocks := Nat.le_trans h.blocks h'.blocks
  stack block hblock := by
    rcases h'.stack block hblock with new | ⟨old, hold, same, sub⟩
    · exact .inl (Nat.le_trans h.blocks new)
    · rcases h.stack old hold with new | ⟨first, hfirst, same', sub'⟩
      · exact .inl (same ▸ new)
      · exact .inr ⟨first, hfirst, same'.trans same, List.Subset.trans sub' sub⟩
  properties := List.Subset.trans h.properties h'.properties
  groups := List.Subset.trans h.groups h'.groups
  output := h'.output.trans h.output

/-- What is free later was free before. -/
theorem free (h : b.Retains b') (hn : b'.names.isUsed n = false) : b.names.isUsed n = false := by
  by_contra hused
  have := h.used n (by simpa using hused)
  rw [hn] at this
  cases this

theorem add (b : StageBuild) (st : Statement) : b.Retains (b.add st) := by
  obtain ⟨names, blocks, properties, -, output, groups⟩ := b.frame_add st
  refine ⟨fun _ hn => names ▸ hn, Nat.le_of_eq blocks.symm, fun block hblock => .inr ?_, ?_, ?_,
    output⟩
  · rw [stack_add] at hblock
    cases hs : b.stack with
    | nil => exact absurd hs b.stack_ne_nil
    | cons old rest =>
      rw [hs, Block.extend] at hblock
      rcases List.mem_cons.1 hblock with rfl | hblock
      · exact ⟨old, .head _, rfl, List.subset_append_left _ _⟩
      · exact ⟨block, .tail _ hblock, rfl, List.Subset.refl _⟩
  · unfold propertyNames
    rw [properties]
    exact List.Subset.refl _
  · rw [groups]
    exact List.Subset.refl _

theorem openBlock (b : StageBuild) : b.Retains b.openBlock where
  used _ hn := hn
  blocks := Nat.le_succ _
  stack block hblock := by
    rcases List.mem_cons.1 (b.stack_openBlock ▸ hblock) with rfl | hblock
    · exact .inl (Nat.le_refl _)
    · exact .inr ⟨block, hblock, rfl, List.Subset.refl _⟩
  properties := List.Subset.refl _
  groups := List.Subset.refl _
  output := rfl

theorem closeBlock (b : StageBuild) : b.Retains b.closeBlock where
  used _ hn := hn
  blocks := Nat.le_refl _
  stack block hblock := by
    refine .inr ⟨block, ?_, rfl, List.Subset.refl _⟩
    unfold StageBuild.stack StageBuild.closeBlock at *
    exact (List.Sublist.append_right (List.tail_sublist _) _).subset hblock
  properties := List.Subset.refl _
  groups := List.Subset.refl _
  output := rfl

end Retains

end StageBuild

/-! ## Generated code -/

/-! ### States -/

/-- Whether the value of a node may be bound to a name. -/
def NodeOf.mayBind : Node → Bool
  | .texture .. | .var .. | .operator .. | .unary .. | .math .. | .join .. | .convert ..
  | .conditional .. | .struct .. | .array .. | .call .. => true
  | _ => false

/-- A statement that declares the name which a node is bound to; variables own their declarations. -/
def BoundName.DeclaredBy (b : BoundName) (k : CacheKey) (st : Statement) : Prop :=
  st.binds? = some b.name ∧ st.owner? = b.frame.elim (some k) fun _ => none

/-- Some of the blocks is that of a bound name, and declares the name for the node. -/
def BoundName.DeclaredIn (b : BoundName) (k : CacheKey) (blocks : List Block) : Prop :=
  ∃ block ∈ blocks, block.id = b.block ∧ ∃ st ∈ block.statements, b.DeclaredBy k st

/-- A name that an open block declares is in scope. -/
theorem BoundName.DeclaredIn.visible {b : BoundName} {k : CacheKey} {e : StageBuild}
    (h : b.DeclaredIn k e.stack) : b.name ∈ e.visible := by
  obtain ⟨block, hblock, -, st, hst, binds, -⟩ := h
  exact List.mem_flatMap.2 ⟨block, hblock, List.mem_filterMap.2 ⟨st, hst, binds⟩⟩

namespace Visit

/-- Whether the name that the node was bound to could be used at the place of the question. -/
def Sees (v : Visit) (b : BoundName) : Prop :=
  (∀ f, b.frame = some f → f = Frame.current v.frames) ∧ v.entry.isOpen b.block = true

/-- What is true of the answer to each question. -/
structure InScope (p : Plan) (v : Visit) : Prop where
  /-- The names in scope were different ones. -/
  once : (v.entry.visible ++ (v.loops.map ActiveLoop.counter ++ v.entry.propertyNames)).Nodup
  /-- A name that could be used was the answer, and an open block had declared it for the node. -/
  reused : ∀ b, v.bound = some b → v.Sees b → v.code = some (Build.localName b.name) ∧
    b.DeclaredIn v.key v.entry.stack
  /-- The answer for the counter of a loop is that of the innermost loop that is meant. -/
  counted : ∀ loop param, p.node v.key.node = .ok (.loopIndex loop param) → ∃ m l,
    p.resolve loop = .ok m ∧ v.loops.find? (fun l => l.node = m ∧ l.param = param) = some l ∧
      v.code = some (Build.localName l.counter)

end Visit

namespace BuildState

variable {p : Plan} {t : Stage} {cs : List String} {s s' s'' : BuildState} {n : String}
  {ss ss' : List Statement}

/-- What may be referred to everywhere in the entry point of a stage: properties, and members of
the blocks that the stage declares. -/
def knows (s : BuildState) (t : Stage) : Reference → Prop
  | .local n => n ∈ (s.stages.get t).propertyNames
  | .uniform inst member => ∃ group ∈ (s.stages.get t).groups,
      (∃ block, s.namesOf (.group group) = [block, inst]) ∧
        ∃ name, s.namesOf (.member ⟨name, group⟩) = [member]
  | _ => True

/-- What is known stays so. -/
theorem knows_mono (h : s.Enters p s')
    (hg : (s.stages.get t).groups ⊆ (s'.stages.get t).groups)
    (hp : (s.stages.get t).propertyNames ⊆ (s'.stages.get t).propertyNames) :
    ∀ r, s.knows t r → s'.knows t r := by
  intro r hr
  cases r with
  | «local» n => exact hp hr
  | uniform inst member =>
    obtain ⟨group, hgroup, ⟨block, hblock⟩, name, hname⟩ := hr
    exact ⟨group, hg hgroup, ⟨block, (h.keep (hblock ▸ List.cons_ne_nil _ _)).trans hblock⟩, name,
      (h.keep (hname ▸ List.cons_ne_nil _ _)).trans hname⟩
  | _ => trivial

/-- The name that a node is bound to is used, declared in its block while that is open, and no other
node is bound to it. -/
structure Holds (p : Plan) (s : BuildState) (t : Stage) (k : CacheKey) (b : BoundName) : Prop where
  kind : ∃ n, p.node k.node = .ok n ∧ n.mayBind = true
  used : (s.stages.get t).names.isUsed b.name = true
  below : b.block.index < (s.stages.get t).nextBlock
  declared : ∀ block ∈ (s.stages.get t).stack, block.id = b.block →
    ∃ st ∈ block.statements, b.DeclaredBy k st
  alone : ∀ k' b', k'.stage = some t → s.cache.bound? k' = some b' → b'.name = b.name → k' = k

/-- All names that nodes are bound to are in order. -/
def Holding (p : Plan) (s : BuildState) : Prop :=
  ∀ t k b, k.stage = some t → s.cache.bound? k = some b → s.Holds p t k b

/-- What the answer to a question refers to, locals apart, is known in the stage. -/
def Resolves (s : BuildState) (v : Visit) : Prop :=
  ∃ t, v.key.stage = some t ∧ ∀ e, v.code = some e → ∀ r ∈ e.references,
    s.knows t r ∨ ∃ n, r = .local n

theorem Resolves.mono {v : Visit} (h : s.Resolves v) (hk : ∀ t r, s.knows t r → s'.knows t r) :
    s'.Resolves v := by
  obtain ⟨t, stage, known⟩ := h
  exact ⟨t, stage, fun e he r hr => (known e he r hr).imp_left (hk t r)⟩

/-- The answers that were given are in order, and a name was bound for one node only. -/
structure Logged (p : Plan) (s : BuildState) : Prop where
  told : ∀ v ∈ s.visits, v.InScope p
  known : ∀ v ∈ s.visits, s.Resolves v
  used : ∀ v ∈ s.visits, ∀ t b, v.key.stage = some t → v.bound = some b →
    (s.stages.get t).names.isUsed b.name = true
  alone : ∀ v ∈ s.visits, ∀ t b, v.key.stage = some t → v.bound = some b →
    ∀ k b', k.stage = some t → s.cache.bound? k = some b' → b'.name = b.name → k = v.key
  apart : ∀ v ∈ s.visits, ∀ v' ∈ s.visits, ∀ t b b', v.key.stage = some t → v'.key.stage = some t →
    v.bound = some b → v'.bound = some b' → b.name = b'.name → v.key = v'.key

/-- The state is in order in a stage with some counters around. -/
structure Tidy (p : Plan) (t : Stage) (cs : List String) (s : BuildState) : Prop where
  named : s.Named p
  sound : ∀ u, (s.stages.get u).Sound (if u = t then cs else [])
  holding : s.Holding p
  logged : s.Logged p

/-- What happens beside the open blocks of a stage: names are taken and bound, the vertex program
goes on, and nodes are visited. -/
structure Steps (p : Plan) (t : Stage) (s s' : BuildState) : Prop where
  enters : s.Enters p s'
  retains : ∀ u, (s.stages.get u).Retains (s'.stages.get u)
  vertex : t ≠ .vertex →
    StageBuild.Adds (s'.knows .vertex) [] (s.stages.get .vertex) (s'.stages.get .vertex)
  others : ∀ u, u ≠ t → u ≠ .vertex → (s'.stages.get u).body = (s.stages.get u).body
  /-- A name that is bound anew was free. -/
  bound : ∀ u k b, k.stage = some u → s'.cache.bound? k = some b →
    s.cache.bound? k = some b ∨ (s.stages.get u).names.isUsed b.name = false
  asked : ∀ v ∈ s'.visits, v ∈ s.visits ∨ ∀ u b, v.key.stage = some u → v.bound = some b →
    s.cache.bound? v.key = some b ∨ (s.stages.get u).names.isUsed b.name = false
  holding : s.Holding p → s'.Holding p
  logged : s.Logged p → s'.Logged p

/-- The innermost block of a stage grows. -/
structure Grows (p : Plan) (t : Stage) (cs : List String) (s s' : BuildState) : Prop
    extends s.Steps p t s' where
  adds : StageBuild.Adds (s'.knows t) cs (s.stages.get t) (s'.stages.get t)

/-- The statements of a block that was closed are handed over. -/
structure Hands (p : Plan) (t : Stage) (cs : List String) (ss : List Statement)
    (s s' : BuildState) : Prop extends s.Steps p t s' where
  leaves : StageBuild.Leaves (s'.knows t) cs ss (s.stages.get t) (s'.stages.get t)

namespace Steps

theorem knows (h : s.Steps p t s') (u : Stage) : ∀ r, s.knows u r → s'.knows u r :=
  knows_mono h.enters (h.retains u).groups (h.retains u).properties

theorem trans (h : s.Steps p t s') (h' : s'.Steps p t s'') : s.Steps p t s'' where
  enters := h.enters.trans h'.enters
  retains u := (h.retains u).trans (h'.retains u)
  vertex hv := ((h.vertex hv).mono (h'.knows .vertex)).trans (h'.vertex hv)
  others u hu hv := (h'.others u hu hv).trans (h.others u hu hv)
  bound u k b hk hb := by
    rcases h'.bound u k b hk hb with hb | free
    · exact h.bound u k b hk hb
    · exact .inr ((h.retains u).free free)
  asked v hv := by
    rcases h'.asked v hv with hv | new
    · exact h.asked v hv
    · refine .inr fun u b hk hb => ?_
      rcases new u b hk hb with hb' | free
      · exact h.bound u v.key b hk hb'
      · exact .inr ((h.retains u).free free)
  holding := h'.holding ∘ h.holding
  logged := h'.logged ∘ h.logged

/-- The state stays in order when the stage does. -/
theorem tidy (h : s.Steps p t s') (hs : s.Tidy p t cs) (hb : (s'.stages.get t).Sound cs) :
    s'.Tidy p t cs where
  named := h.enters.named hs.named
  sound u := by
    have sound := hs.sound u
    by_cases hu : u = t
    · rw [if_pos hu]
      exact hu ▸ hb
    · rw [if_neg hu] at sound ⊢
      by_cases hv : u = .vertex
      · subst hv
        exact (h.vertex fun ht => hu ht.symm).sound sound
      · exact sound.of_body (h.others u hu hv)
  holding := h.holding hs.holding
  logged := h.logged hs.logged

end Steps

namespace Grows

theorem trans (h : s.Grows p t cs s') (h' : s'.Grows p t cs s'') : s.Grows p t cs s'' :=
  ⟨h.toSteps.trans h'.toSteps, (h.adds.mono (h'.knows t)).trans h'.adds⟩

theorem tidy (h : s.Grows p t cs s') (hs : s.Tidy p t cs) : s'.Tidy p t cs := by
  have sound := hs.sound t
  rw [if_pos rfl] at sound
  exact h.toSteps.tidy hs (h.adds.sound sound)

end Grows

theorem Hands.tidy (h : s.Hands p t cs ss s') (hs : s.Tidy p t cs) : s'.Tidy p t cs := by
  have sound := hs.sound t
  rw [if_pos rfl] at sound
  exact h.toSteps.tidy hs (h.leaves.sound sound)

/-- The names of locals in scope, apart from properties. -/
def scope (s : BuildState) (t : Stage) (cs : List String) : List String :=
  (s.stages.get t).visible ++ cs

/-- The expressions refer to what is in scope. -/
def Refers (s : BuildState) (t : Stage) (cs : List String) (es : List Expr) : Prop :=
  ∀ e ∈ es, e.Refers (s.knows t) (s.scope t cs)

theorem Grows.refers {es : List Expr} (h : s.Grows p t cs s') (he : s.Refers t cs es) :
    s'.Refers t cs es :=
  fun e hmem => (he e hmem).mono (h.knows t) fun _ hn =>
    (List.mem_append.1 hn).elim (fun hn => List.mem_append_left _ (h.adds.visible_subset hn))
      (List.mem_append_right _)

theorem Hands.refers {es : List Expr} (h : s.Hands p t cs ss s') (he : s.Refers t cs es) :
    s'.Refers t cs es := by
  intro e hmem
  refine (he e hmem).mono (h.knows t) fun n hn => ?_
  unfold scope at *
  rwa [StageBuild.visible_of_stack h.leaves.stack]

/-- No node is bound to a name, nor was one when it was visited. -/
def Unbound (s : BuildState) (t : Stage) (n : String) : Prop :=
  (∀ k b, k.stage = some t → s.cache.bound? k = some b → b.name ≠ n) ∧
    ∀ v ∈ s.visits, ∀ b, v.key.stage = some t → v.bound = some b → b.name ≠ n

/-- A name that is free is not bound. -/
theorem Tidy.unbound (h : s.Tidy p t cs) {u : Stage}
    (hn : (s.stages.get u).names.isUsed n = false) :
    s.Unbound u n := by
  refine ⟨fun k b hk hb he => ?_, fun v hv b hk hb he => ?_⟩
  · have used := (h.holding u k b hk hb).used
    rw [he, hn] at used
    cases used
  · have used := h.logged.used v hv u b hk hb
    rw [he, hn] at used
    cases used

/-- A name that is used and not bound is not bound later. -/
theorem Steps.unbound (h : s.Steps p t s') {u : Stage} (hn : s.Unbound u n)
    (hu : (s.stages.get u).names.isUsed n = true) : s'.Unbound u n := by
  have free : ∀ {m}, (s.stages.get u).names.isUsed m = false → m ≠ n := by
    rintro m hm rfl
    rw [hm] at hu
    cases hu
  refine ⟨fun k b hk hb => ?_, fun v hv b hk hb => ?_⟩
  · exact (h.bound u k b hk hb).elim (hn.1 k b hk) free
  · rcases h.asked v hv with hv | new
    · exact hn.2 v hv b hk hb
    · exact (new u b hk hb).elim (hn.1 v.key b hk) free

end BuildState

end ShaderGraph
