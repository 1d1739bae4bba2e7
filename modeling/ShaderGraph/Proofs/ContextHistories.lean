import ShaderGraph.Proofs.Scopes

/-!
# Histories of context stacks

`ContextRun` is a context stack with the nodes whose contexts were entered and the parts that were
left by truncation, beside it. A history is matching when each part is put back on the nodes that it
was left from. Then at any two moments the number of the frames is the same exactly when the nodes
are, and the same nodes have the same frames (`ContextRun.current_iff`).

The number of a sequence of nodes never changes once it was given (`FrameTable.number?_of_extends`),
and no other sequence is given it (`FrameTable.Regular.number?_inj`). So it is enough that the frames
are always those of the nodes (`Numbered`), which a step keeps up.
-/

namespace ShaderGraph

/-- The frames are those of the context nodes: with the numbers of the sequences up to each node, and
the values that the node lends. -/
inductive Numbered (lent : NodeId → List (String × NodeId)) (t : FrameTable) :
    List Frame → List NodeId → Prop
  | nil : Numbered lent t [] []
  | cons {f : Frame} {fs : List Frame} {n : NodeId} {ns : List NodeId}
      (number : t.number? (n :: ns) = some f.id) (values : f.values = lent n)
      (outer : Numbered lent t fs ns) : Numbered lent t (f :: fs) (n :: ns)

namespace Numbered

variable {lent : NodeId → List (String × NodeId)} {t t' : FrameTable} {fs gs : List Frame}
  {ns : List NodeId}

theorem mono (ht : t.Extends t') (h : Numbered lent t fs ns) : Numbered lent t' fs ns := by
  induction h with
  | nil => exact .nil
  | cons number values _ ih => exact .cons (FrameTable.number?_of_extends ht number) values ih

theorem current (h : Numbered lent t fs ns) : t.number? ns = some (Frame.current fs) := by
  cases h with
  | nil => rfl
  | cons number _ _ => exact number

theorem length_eq (h : Numbered lent t fs ns) : fs.length = ns.length := by
  induction h with
  | nil => rfl
  | cons _ _ _ ih => exact congrArg Nat.succ ih

/-- The nodes say which frames there are. -/
theorem unique (h : Numbered lent t fs ns) (h' : Numbered lent t gs ns) : fs = gs := by
  induction h generalizing gs with
  | nil =>
    cases h'
    rfl
  | @cons f _ _ _ number values _ ih =>
    cases h' with
    | @cons g _ _ _ number' values' outer' =>
      have same : f = g := by
        cases f
        cases g
        rw [Frame.mk.injEq]
        exact ⟨Option.some.inj (number.symm.trans number'), values.trans values'.symm⟩
      rw [same, ih outer']

theorem drop (h : Numbered lent t fs ns) (k : Nat) : Numbered lent t (fs.drop k) (ns.drop k) := by
  induction k generalizing fs ns with
  | zero => exact h
  | succ k ih =>
    cases h with
    | nil => exact .nil
    | cons _ _ outer => exact ih outer

theorem extend (h : Numbered lent t fs ns) (n : NodeId) :
    Numbered lent (t.extend (Frame.current fs) n).2
      (⟨(t.extend (Frame.current fs) n).1, lent n⟩ :: fs) (n :: ns) :=
  .cons (FrameTable.number?_extend h.current) rfl (h.mono FrameTable.extends_extend)

end Numbered

/-! ### Histories -/

/-- A step of a history; `restore i` puts back what the truncation left that was the last but `i`. -/
inductive ContextTurn
  | push (node : NodeId)
  | pop
  | truncate (depth : Nat)
  | restore (i : Nat)
deriving DecidableEq

/-- What a truncation left, and the nodes that stayed. -/
structure ContextCut where
  frames : List Frame
  nodes : List NodeId
  stayed : List NodeId

/-- A context stack with the nodes whose frames it holds, innermost first, and all that truncations
have left so far, the latest first. -/
structure ContextRun where
  stack : ContextStack
  nodes : List NodeId
  cuts : List ContextCut

namespace ContextRun

variable {lent : NodeId → List (String × NodeId)} {s s' : ContextRun} {T : ContextTurn}
  {turns later : List ContextTurn} {i : Nat} {cut : ContextCut}

/-- The stack at the start. -/
def start : ContextRun := ⟨.empty, [], []⟩

/-- One step; a node is always pushed with the values that it lends. -/
def turn (lent : NodeId → List (String × NodeId)) (s : ContextRun) : ContextTurn → ContextRun
  | .push node => { s with stack := s.stack.push node (lent node), nodes := node :: s.nodes }
  | .pop => { s with stack := s.stack.pop, nodes := s.nodes.tail }
  | .truncate depth =>
    let (frames, stack) := s.stack.truncate depth
    let stayed := s.nodes.drop (s.nodes.length - depth)
    ⟨stack, stayed, ⟨frames, s.nodes.take (s.nodes.length - depth), stayed⟩ :: s.cuts⟩
  | .restore i =>
    match s.cuts[i]? with
    | some cut => { s with stack := s.stack.restore cut.frames, nodes := cut.nodes ++ s.nodes }
    | none => s

theorem turn_restore_none (h : s.cuts[i]? = none) : s.turn lent (.restore i) = s := by
  unfold turn
  dsimp only
  rw [h]

theorem turn_restore (h : s.cuts[i]? = some cut) : s.turn lent (.restore i) =
    { s with stack := s.stack.restore cut.frames, nodes := cut.nodes ++ s.nodes } := by
  unfold turn
  dsimp only
  rw [h]

/-- One step after another. -/
def run (lent : NodeId → List (String × NodeId)) (s : ContextRun) (turns : List ContextTurn) :
    ContextRun := turns.foldl (turn lent) s

/-- What is put back matches: it goes on the nodes that stayed when it was left. -/
def Fits (s : ContextRun) : ContextTurn → Prop
  | .restore i => ∀ cut, s.cuts[i]? = some cut → cut.stayed = s.nodes
  | _ => True

/-- All that is put back in a history matches. -/
def Matching (lent : NodeId → List (String × NodeId)) : ContextRun → List ContextTurn → Prop
  | _, [] => True
  | s, T :: turns => s.Fits T ∧ Matching lent (s.turn lent T) turns

theorem run_append : run lent s (turns ++ later) = run lent (run lent s turns) later :=
  List.foldl_append

theorem Matching.left (h : Matching lent s (turns ++ later)) : Matching lent s turns := by
  induction turns generalizing s with
  | nil => trivial
  | cons T turns ih => exact ⟨h.1, ih h.2⟩

theorem Matching.append (h : Matching lent s turns) (h' : Matching lent (run lent s turns) later) :
    Matching lent s (turns ++ later) := by
  induction turns generalizing s with
  | nil => exact h'
  | cons T turns ih => exact ⟨h.1, ih h.2 h'⟩

/-- The frames are those of the nodes, and what was left are the frames of nodes, too. -/
structure Sound (lent : NodeId → List (String × NodeId)) (s : ContextRun) : Prop where
  regular : s.stack.table.Regular
  numbered : Numbered lent s.stack.table s.stack.frames s.nodes
  cuts : ∀ cut ∈ s.cuts, ∃ fs, Numbered lent s.stack.table fs cut.stayed ∧
    Numbered lent s.stack.table (cut.frames ++ fs) (cut.nodes ++ cut.stayed)

theorem sound_start : start.Sound lent where
  regular := FrameTable.regular_empty
  numbered := .nil
  cuts := fun _ h => nomatch h

/-- A step that matches keeps the frames those of the nodes. -/
theorem Sound.turn (h : s.Sound lent) (fits : s.Fits T) : (s.turn lent T).Sound lent := by
  cases T with
  | push node =>
    refine ⟨h.regular.extend, h.numbered.extend node, fun cut hc => ?_⟩
    obtain ⟨fs, stayed, all⟩ := h.cuts cut hc
    exact ⟨fs, stayed.mono FrameTable.extends_extend, all.mono FrameTable.extends_extend⟩
  | pop =>
    have left := h.numbered.drop 1
    rw [List.drop_one, List.drop_one] at left
    exact ⟨h.regular, left, h.cuts⟩
  | truncate depth =>
    have length := h.numbered.length_eq
    have stayed := h.numbered.drop (s.nodes.length - depth)
    refine ⟨h.regular, ?_, fun cut hc => ?_⟩
    · show Numbered _ _ (s.stack.frames.drop (s.stack.frames.length - depth)) _
      rw [length]
      exact stayed
    · rcases List.mem_cons.1 hc with rfl | hc
      · refine ⟨_, stayed, ?_⟩
        show Numbered _ _ (s.stack.frames.take (s.stack.frames.length - depth) ++ _) _
        rw [length, List.take_append_drop, List.take_append_drop]
        exact h.numbered
      · exact h.cuts cut hc
  | restore i =>
    cases hi : s.cuts[i]? with
    | none => rwa [turn_restore_none hi]
    | some cut =>
      rw [turn_restore hi]
      obtain ⟨fs, stayed, all⟩ := h.cuts cut (List.mem_of_getElem? hi)
      rw [fits cut hi] at stayed all
      obtain rfl := stayed.unique h.numbered
      exact ⟨h.regular, all, h.cuts⟩

theorem Sound.run (h : s.Sound lent) (matching : Matching lent s turns) :
    (run lent s turns).Sound lent := by
  induction turns generalizing s with
  | nil => exact h
  | cons T turns ih => exact ih (h.turn matching.1) matching.2

/-- The table of numbers only grows. -/
theorem extends_run : s.stack.table.Extends (run lent s turns).stack.table := by
  induction turns generalizing s with
  | nil => exact .refl _
  | cons T turns ih =>
    refine FrameTable.Extends.trans ?_ (ih (s := s.turn lent T))
    cases T with
    | push node => exact FrameTable.extends_extend
    | pop => exact .refl _
    | truncate depth => exact .refl _
    | restore i =>
      cases hi : s.cuts[i]? with
      | none =>
        rw [turn_restore_none hi]
        exact .refl _
      | some cut =>
        rw [turn_restore hi]
        exact .refl _

/-! ### What is put back -/

/-- How often the stack is truncated. -/
def truncations (turns : List ContextTurn) : Nat :=
  turns.countP fun
    | .truncate _ => true
    | _ => false

/-- Steps after which the stack is as before: what is entered is left, and what is left by a
truncation is put back. -/
inductive Balanced : List ContextTurn → Prop
  | nil : Balanced []
  | frame {node : NodeId} {body rest : List ContextTurn} (h : Balanced body) (hr : Balanced rest) :
      Balanced (.push node :: body ++ .pop :: rest)
  | cut {depth : Nat} {body rest : List ContextTurn} (h : Balanced body) (hr : Balanced rest) :
      Balanced (.truncate depth :: body ++ .restore (truncations body) :: rest)

/-- The stack is as before, with more parts that were left meanwhile. -/
def Returns (s : ContextRun) (n : Nat) (s' : ContextRun) : Prop :=
  s'.stack.frames = s.stack.frames ∧ s'.nodes = s.nodes ∧
    ∃ left, s'.cuts = left ++ s.cuts ∧ left.length = n

theorem Returns.trans {s'' : ContextRun} {m n : Nat} (h : s.Returns m s') (h' : s'.Returns n s'') :
    s.Returns (m + n) s'' := by
  obtain ⟨frames, nodes, left, cuts, length⟩ := h
  obtain ⟨frames', nodes', left', cuts', length'⟩ := h'
  refine ⟨frames'.trans frames, nodes'.trans nodes, left' ++ left, ?_, ?_⟩
  · rw [cuts', cuts, List.append_assoc]
  · rw [List.length_append, length, length', Nat.add_comm]

/-- What a truncation left is put back after steps that return to where it was left. -/
theorem returns_restore {depth n : Nat} (h : (s.turn lent (.truncate depth)).Returns n s') :
    s'.Fits (.restore n) ∧ s.Returns (n + 1) (s'.turn lent (.restore n)) := by
  obtain ⟨frames, nodes, left, cuts, length⟩ := h
  have found : s'.cuts[n]? = (s.turn lent (.truncate depth)).cuts[0]? := by
    rw [cuts, List.getElem?_append_right (Nat.le_of_eq length), length, Nat.sub_self]
  refine ⟨fun cut hc => ?_, ?_⟩
  · obtain rfl := Option.some.inj (found.symm.trans hc)
    exact nodes.symm
  · rw [turn_restore found]
    refine ⟨?_, ?_, left ++ (s.turn lent (.truncate depth)).cuts.take 1, ?_, ?_⟩
    · show _ ++ s'.stack.frames = _
      rw [frames]
      exact List.take_append_drop _ _
    · show _ ++ s'.nodes = _
      rw [nodes]
      exact List.take_append_drop _ _
    · show s'.cuts = _
      rw [cuts, List.append_assoc]
      rfl
    · rw [List.length_append, length]
      rfl

/-- Balanced steps match, and the stack is as before them. -/
theorem Balanced.returns (h : Balanced turns) (s : ContextRun) :
    Matching lent s turns ∧ s.Returns (truncations turns) (run lent s turns) := by
  induction h generalizing s with
  | nil => exact ⟨trivial, rfl, rfl, [], rfl, rfl⟩
  | @frame node body rest _ _ ih ihr =>
    obtain ⟨matching, frames, nodes, left, cuts, length⟩ := ih (s.turn lent (.push node))
    let inner := run lent (s.turn lent (.push node)) body
    have around : s.Returns (truncations body) (inner.turn lent .pop) := by
      refine ⟨?_, ?_, left, cuts, length⟩
      · show inner.stack.frames.tail = _
        rw [frames]
        exact s.stack.frames_pop_push node (lent node)
      · show inner.nodes.tail = _
        rw [nodes]
        rfl
    obtain ⟨matching', rest'⟩ := ihr (inner.turn lent .pop)
    refine ⟨⟨trivial, ?_⟩, ?_⟩
    · exact Matching.append matching ⟨trivial, matching'⟩
    · have all := around.trans rest'
      rw [List.cons_append, truncations, List.countP_cons_of_neg (by simp), List.countP_append,
        List.countP_cons_of_neg (by simp), run, List.foldl_cons, List.foldl_append, List.foldl_cons]
      exact all
  | @cut depth body rest _ _ ih ihr =>
    obtain ⟨matching, inside⟩ := ih (s.turn lent (.truncate depth))
    obtain ⟨fits, around⟩ := returns_restore inside
    obtain ⟨matching', rest'⟩ := ihr
      ((run lent (s.turn lent (.truncate depth)) body).turn lent (.restore (truncations body)))
    refine ⟨⟨trivial, ?_⟩, ?_⟩
    · exact Matching.append matching ⟨fits, matching'⟩
    · have all := around.trans rest'
      rw [List.cons_append, truncations, List.countP_cons_of_pos (by simp), List.countP_append,
        List.countP_cons_of_neg (by simp), run, List.foldl_cons, List.foldl_append, List.foldl_cons,
        Nat.add_right_comm]
      exact all

/-! ### Numbers -/

/-- At any two moments of a matching history, the numbers of the frames are the same exactly when the
context nodes are. Then the frames are the same, so the depth is, and every key has the same value.
After a truncation and balanced steps, what was left can be put back, and the stack is the one before
the truncation. -/
theorem current_iff (matching : Matching lent start (turns ++ later)) :
    ((run lent start turns).stack.current = (run lent start (turns ++ later)).stack.current ↔
        (run lent start turns).nodes = (run lent start (turns ++ later)).nodes) ∧
      ((run lent start turns).stack.current = (run lent start (turns ++ later)).stack.current →
        (run lent start turns).stack.depth = (run lent start (turns ++ later)).stack.depth ∧
          ∀ key, (run lent start turns).stack.lookup? key =
            (run lent start (turns ++ later)).stack.lookup? key) ∧
      ∀ depth body, Balanced body → (run lent start (turns ++
        (.truncate depth :: body ++ [.restore (truncations body)]))).stack.frames =
          (run lent start turns).stack.frames := by
  have before := sound_start.run matching.left
  have after := sound_start.run matching
  have grows : (run lent start turns).stack.table.Extends
      (run lent start (turns ++ later)).stack.table := by
    rw [run_append]
    exact extends_run
  have kept := before.numbered.mono grows
  have numbers : (run lent start turns).stack.current =
      (run lent start (turns ++ later)).stack.current →
        (run lent start turns).nodes = (run lent start (turns ++ later)).nodes := by
    intro same
    have number := after.numbered.current
    rw [show Frame.current _ = _ from same.symm] at number
    exact after.regular.number?_inj kept.current number
  have frames : (run lent start turns).nodes = (run lent start (turns ++ later)).nodes →
      (run lent start turns).stack.frames = (run lent start (turns ++ later)).stack.frames :=
    fun same => kept.unique (same ▸ after.numbered)
  refine ⟨⟨numbers, fun same => ?_⟩, fun same => ?_, fun depth body balanced => ?_⟩
  · exact congrArg Frame.current (frames same)
  · have same := frames (numbers same)
    refine ⟨congrArg List.length same, fun key => ?_⟩
    unfold ContextStack.lookup?
    rw [same]
  · have inside : ((run lent start turns).turn lent (.truncate depth)).Returns _
        (run lent ((run lent start turns).turn lent (.truncate depth)) body) :=
      (balanced.returns _).2
    have around := (returns_restore inside).2.1
    rw [run_append, List.cons_append, run, List.foldl_cons, List.foldl_append]
    exact around

/-- Two contexts, of which the inner one is left while another is entered. -/
theorem nested_current_iff :
    ((run (fun n => [("uv", n)]) start [.push ⟨1⟩, .push ⟨2⟩]).stack.current =
        (run (fun n => [("uv", n)]) start ([.push ⟨1⟩, .push ⟨2⟩] ++
          [.truncate 1, .push ⟨3⟩, .pop, .restore 0])).stack.current ↔
      (run (fun n => [("uv", n)]) start [.push ⟨1⟩, .push ⟨2⟩]).nodes =
        (run (fun n => [("uv", n)]) start ([.push ⟨1⟩, .push ⟨2⟩] ++
          [.truncate 1, .push ⟨3⟩, .pop, .restore 0])).nodes) ∧
      (run (fun n => [("uv", n)]) start [.push ⟨1⟩, .push ⟨2⟩]).nodes = [⟨2⟩, ⟨1⟩] :=
  have matching : Matching (fun n => [("uv", n)]) start ([.push ⟨1⟩, .push ⟨2⟩] ++
      [.truncate 1, .push ⟨3⟩, .pop, .restore 0]) :=
    Matching.append ⟨trivial, trivial, trivial⟩
      (Balanced.cut (.frame .nil .nil) .nil |>.returns _).1
  ⟨(current_iff matching).1, rfl⟩

end ContextRun

end ShaderGraph
