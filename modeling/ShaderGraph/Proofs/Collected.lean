import Mathlib.Data.List.Perm.Basic
import ShaderGraph.Proofs.Walk

/-!
# What statements hold

`Statement.collect f` lists what `f` finds at a statement and at those in its blocks, however deep
they are, and `StageBuild.collect f` what it finds in the open blocks of a stage. A statement that
is added brings what it holds; a block that is closed takes away what it holds.
-/

namespace ShaderGraph

variable {α : Type}

namespace Statement

mutual

/-- What `f` finds at a statement and at those in its blocks. -/
def collect (f : Statement → List α) : Statement → List α
  | branch condition thenBody elseBody =>
    f (branch condition thenBody elseBody) ++ (collectIn f thenBody ++ collectElse f elseBody)
  | loop counter type start condition stop step body =>
    f (loop counter type start condition stop step body) ++ collectIn f body
  | declare name type init m owner => f (declare name type init m owner)
  | assign place value => f (assign place value)
  | update place op value => f (update place op value)
  | call function args => f (call function args)
  | jump j => f (jump j)

/-- What `f` finds at the statements of a block and below. -/
def collectIn (f : Statement → List α) : List Statement → List α
  | [] => []
  | s :: rest => collect f s ++ collectIn f rest

/-- What `f` finds in the second branch. -/
def collectElse (f : Statement → List α) : Option (List Statement) → List α
  | none => []
  | some body => collectIn f body

end

variable {f : Statement → List α}

theorem collectIn_append (ss ss' : List Statement) :
    collectIn f (ss ++ ss') = collectIn f ss ++ collectIn f ss' := by
  induction ss with
  | nil => rfl
  | cons s rest ih => rw [List.cons_append, collectIn, collectIn, ih, List.append_assoc]

mutual

theorem collect_subset {xs : List α} (h : ∀ st, f st ⊆ xs) : ∀ st, collect f st ⊆ xs
  | branch _ thenBody elseBody =>
    List.append_subset.2 ⟨h _, List.append_subset.2
      ⟨collectIn_subset h thenBody, collectElse_subset h elseBody⟩⟩
  | loop _ _ _ _ _ _ body => List.append_subset.2 ⟨h _, collectIn_subset h body⟩
  | declare .. | assign .. | update .. | call .. | jump _ => h _

/-- What is found at single statements is all that is found. -/
theorem collectIn_subset {xs : List α} (h : ∀ st, f st ⊆ xs) : ∀ ss, collectIn f ss ⊆ xs
  | [] => List.nil_subset _
  | st :: rest => List.append_subset.2 ⟨collect_subset h st, collectIn_subset h rest⟩

theorem collectElse_subset {xs : List α} (h : ∀ st, f st ⊆ xs) : ∀ body, collectElse f body ⊆ xs
  | none => List.nil_subset _
  | some body => collectIn_subset h body

end

mutual

theorem collect_sublist {g : Statement → List α} (h : ∀ st, (f st).Sublist (g st)) :
    ∀ st, (collect f st).Sublist (collect g st)
  | branch _ thenBody elseBody =>
    (h _).append ((collectIn_sublist h thenBody).append (collectElse_sublist h elseBody))
  | loop _ _ _ _ _ _ body => (h _).append (collectIn_sublist h body)
  | declare .. | assign .. | update .. | call .. | jump _ => h _

/-- What finds less at each statement finds less in all, in the same order. -/
theorem collectIn_sublist {g : Statement → List α} (h : ∀ st, (f st).Sublist (g st)) :
    ∀ ss, (collectIn f ss).Sublist (collectIn g ss)
  | [] => .slnil
  | st :: rest => (collect_sublist h st).append (collectIn_sublist h rest)

theorem collectElse_sublist {g : Statement → List α} (h : ∀ st, (f st).Sublist (g st)) :
    ∀ body, (collectElse f body).Sublist (collectElse g body)
  | none => .slnil
  | some body => collectIn_sublist h body

end

mutual

theorem map_collect {β : Type} (g : α → β) :
    ∀ st, (collect f st).map g = collect (fun st => (f st).map g) st
  | branch _ thenBody elseBody => by
    simp only [collect, List.map_append, map_collectIn g thenBody, map_collectElse g elseBody]
  | loop _ _ _ _ _ _ body => by simp only [collect, List.map_append, map_collectIn g body]
  | declare .. | assign .. | update .. | call .. | jump _ => rfl

/-- What is found is changed where it is found. -/
theorem map_collectIn {β : Type} (g : α → β) :
    ∀ ss, (collectIn f ss).map g = collectIn (fun st => (f st).map g) ss
  | [] => rfl
  | st :: rest => by simp only [collectIn, List.map_append, map_collect g st, map_collectIn g rest]

theorem map_collectElse {β : Type} (g : α → β) :
    ∀ body, (collectElse f body).map g = collectElse (fun st => (f st).map g) body
  | none => rfl
  | some body => map_collectIn g body

end

/-- A statement holds what is found at itself and what its blocks hold. -/
theorem collect_eq (st : Statement) : st.collect f = f st ++ collectIn f st.blocks := by
  cases st with
  | branch c t e =>
    show _ = f _ ++ collectIn f (t ++ e.getD [])
    rw [collectIn_append, collect]
    cases e <;> rfl
  | loop => rfl
  | _ => exact (List.append_nil _).symm

end Statement

namespace StageBuild

variable {f : Statement → List α} {b : StageBuild} {st : Statement}

/-- What `f` finds in the open blocks of a stage. -/
def collect (b : StageBuild) (f : Statement → List α) : List α :=
  b.inner.flatMap (fun block => Statement.collectIn f block.statements) ++
    Statement.collectIn f b.outer.statements

theorem locals_add : (b.add st).locals = b.locals := by
  unfold add
  cases b.inner <;> rfl

theorem collect_add : ((b.add st).collect f).Perm (b.collect f ++ st.collect f) := by
  have last : ∀ ss, Statement.collectIn f (ss ++ [st]) =
      Statement.collectIn f ss ++ st.collect f := by
    intro ss
    rw [Statement.collectIn_append, Statement.collectIn, Statement.collectIn, List.append_nil]
  unfold collect add
  cases b.inner with
  | nil =>
    rw [last]
    exact .refl _
  | cons block rest =>
    simp only [List.flatMap_cons, last, List.append_assoc]
    refine .append_left _ (List.perm_append_comm.trans ?_)
    rw [List.append_assoc]

theorem collect_openBlock : b.openBlock.collect f = b.collect f := by
  unfold collect openBlock
  rw [List.flatMap_cons, Statement.collectIn, List.nil_append]

theorem collect_closeBlock :
    (Statement.collectIn f b.innerStatements ++ b.closeBlock.collect f) = b.collect f := by
  unfold collect closeBlock innerStatements
  cases b.inner with
  | nil => rw [Statement.collectIn]; rfl
  | cons block rest => rw [List.tail_cons, List.flatMap_cons, List.append_assoc]

/-! ### Open blocks -/

theorem openBlocks_add : (b.add st).openBlocks = b.openBlocks := by
  unfold add openBlocks
  cases b.inner <;> rfl

theorem head?_openBlocks : b.openBlocks.head? = some b.currentBlock := by
  unfold openBlocks currentBlock
  cases b.inner <;> rfl

theorem inner_eq_nil_iff : b.inner = [] ↔ b.openBlocks.length ≤ 1 := by
  unfold openBlocks
  rw [List.length_append, List.length_map, List.length_singleton, ← List.length_eq_zero_iff]
  omega

/-- The block that was opened last is closed. -/
theorem openBlocks_closeBlock {b' : StageBuild} {id : BlockId}
    (h : b'.openBlocks = id :: b.openBlocks) : b'.closeBlock.openBlocks = b.openBlocks := by
  unfold openBlocks closeBlock at *
  cases hb : b'.inner with
  | nil =>
    have := congrArg List.length h
    simp [hb] at this
  | cons block rest =>
    rw [hb] at h
    exact (List.cons.inj h).2

end StageBuild

/-- A block that was opened in a stage is closed again. -/
theorem PerStage.openBlocks_closed {stages stages' : PerStage StageBuild} {t : Stage}
    (h : ∀ u, (stages'.get u).openBlocks =
      ((stages.modify t StageBuild.openBlock).get u).openBlocks)
    (u : Stage) : ((stages'.modify t StageBuild.closeBlock).get u).openBlocks =
      (stages.get u).openBlocks := by
  have opened := h u
  rw [get_modify] at opened ⊢
  split
  · next hu =>
    rw [if_pos hu] at opened
    exact StageBuild.openBlocks_closeBlock opened
  · next hu =>
    rw [if_neg hu] at opened
    exact opened

end ShaderGraph
