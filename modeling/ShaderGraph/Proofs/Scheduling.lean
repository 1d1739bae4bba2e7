import ShaderGraph.Proofs.Collections
import ShaderGraph.Proofs.Expansion
import ShaderGraph.Proofs.Inputs
import ShaderGraph.Proofs.ProgramNames
import ShaderGraph.Update

/-!
# Schedules and the records of builds

A renderer begins frames and render calls and asks about the records of two lists, in any order and
as often as it likes. `Schedule.after` is the schedule after such turns.

* `Schedule.since` are the turns since the current frame or render call began.
* `Schedule.marked_iff` is the invariant: a node carries the number of the current frame, or render
  call, just if a record of it with that cadence was asked about since it began.
* `Schedule.isDue_after` says when a record is due: the node and the cadence count, and not the list
  that the record stands in.

A build records the uniforms and the custom nodes that are refreshed, each under its own node; custom
nodes may stand in both lists. A schedule marks nodes, so the records of a node in the two lists share
their mark when they have the same cadence.

* `recorded_of_build` is the invariant of both lists, kept by each step of a build.
* `polls_of_build` says when a record of a build is due. All are honoured just if no node stands in
  both lists to be refreshed once in each frame, or once in each render call.
-/

namespace ShaderGraph

/-! ## Histories of a schedule -/

/-- The two lists of records that a build hands over. -/
inductive RecordList where
  | updates
  | before
deriving DecidableEq

/-- The other list. -/
def RecordList.other : RecordList → RecordList
  | updates => before
  | before => updates

/-- Something that a renderer does with a schedule. -/
inductive Turn where
  | frame (now : Float)
  | render
  | poll (list : RecordList) (r : UpdateRecord)

/-- Whether a cadence counts frames or render calls. -/
def Cadence.isTimed : Cadence → Bool
  | .frame | .render => true
  | .none | .object => false

/-- Whether the frame or the render call that a cadence counts begins with a turn. -/
def Turn.begins (c : Cadence) : Turn → Bool
  | frame _ => c = .frame
  | render => c = .render
  | poll .. => false

namespace Schedule

/-- The schedule after one turn. -/
def turn (s : Schedule) : Turn → Schedule
  | .frame now => s.nextFrame now
  | .render => s.nextRender
  | .poll _ r => (s.isDue r).2

/-- The schedule after some turns, the last of which comes first. -/
def after : List Turn → Schedule
  | [] => start
  | t :: past => (after past).turn t

/-- The turns since the current frame or render call began. -/
def since (c : Cadence) (past : List Turn) : List Turn := past.takeWhile fun t => !t.begins c

/-! ### One turn -/

/-- The marks of the nodes that a cadence refreshed. -/
def marks (s : Schedule) : Cadence → OrderedMap (Nat × NodeId) Nat
  | .frame => s.frameMarks
  | .render => s.renderMarks
  | .none | .object => .empty

/-- The number of the frame or of the render call. -/
def number (s : Schedule) : Cadence → Nat
  | .frame => s.frame
  | .render => s.render
  | .none | .object => 0

variable {s : Schedule} {c : Cadence} {t : Turn} {l : RecordList} {r : UpdateRecord}
  {past : List Turn}

theorem isDue_timed (hc : r.cadence.isTimed = true) : (s.isDue r).1 = true ↔
    (s.marks r.cadence).get? (r.graph, r.node) ≠ some (s.number r.cadence) := by
  cases h : r.cadence with
  | none | object =>
    rw [h] at hc
    cases hc
  | frame | render => simp [isDue, h, mark, marks, number]

/-- What a turn is to a cadence that counts frames or render calls: the next one begins, without
marks; a record is asked about and its node marked; or nothing happens. -/
theorem turn_cases (s : Schedule) (t : Turn) (hc : c.isTimed = true) :
    (t.begins c = true ∧ (s.turn t).marks c = s.marks c ∧
        (s.turn t).number c = s.number c + 1) ∨
      (∃ l r, t = .poll l r ∧ r.cadence = c ∧
        (s.turn t).marks c = (s.marks c).put (r.graph, r.node) (s.number c) ∧
          (s.turn t).number c = s.number c) ∨
      (t.begins c = false ∧ (∀ l r, t = .poll l r → r.cadence ≠ c) ∧
        (s.turn t).marks c = s.marks c ∧ (s.turn t).number c = s.number c) := by
  cases t with
  | frame now =>
    cases c with
    | frame => exact .inl ⟨rfl, rfl, rfl⟩
    | render => exact .inr (.inr ⟨rfl, nofun, rfl, rfl⟩)
    | none | object => cases hc
  | render =>
    cases c with
    | render => exact .inl ⟨rfl, rfl, rfl⟩
    | frame => exact .inr (.inr ⟨rfl, nofun, rfl, rfl⟩)
    | none | object => cases hc
  | poll l r =>
    by_cases h : r.cadence = c
    · subst h
      refine .inr (.inl ⟨l, r, rfl, rfl, ?_⟩)
      cases h : r.cadence with
      | none | object =>
        rw [h] at hc
        cases hc
      | frame | render => simp [turn, isDue, h, mark, marks, number]
    · refine .inr (.inr ⟨rfl, ?_, ?_⟩)
      · rintro l r ⟨⟩
        exact h
      · cases hr : r.cadence with
        | none | object => simp [turn, isDue, hr]
        | frame | render => cases c <;> simp [turn, isDue, hr, mark, marks, number] at h ⊢

/-! ### All turns -/

/-- Asking about the records of a list is to ask about one after another. -/
theorem due_after (l : RecordList) (records : List UpdateRecord) :
    ((after past).due records).2 = after ((records.map (Turn.poll l)).reverse ++ past) := by
  induction records generalizing past with
  | nil => rfl
  | cons r rest ih =>
    rw [due, List.map_cons, List.reverse_cons, List.append_assoc, List.singleton_append, ← ih]
    rfl

theorem since_begins (h : t.begins c = true) : since c (t :: past) = [] := by
  rw [since, List.takeWhile_cons, h]
  rfl

theorem since_cons (h : t.begins c = false) : since c (t :: past) = t :: since c past := by
  rw [since, List.takeWhile_cons, h]
  rfl

/-- Whether a record of a node was asked about at a cadence. -/
def Polled (c : Cadence) (key : Nat × NodeId) (turns : List Turn) : Prop :=
  ∃ l r, .poll l r ∈ turns ∧ r.cadence = c ∧ (r.graph, r.node) = key

theorem polled_cons {key : Nat × NodeId} {turns : List Turn} : Polled c key (t :: turns) ↔
    (∃ l r, t = .poll l r ∧ r.cadence = c ∧ (r.graph, r.node) = key) ∨ Polled c key turns := by
  simp only [Polled, List.mem_cons, or_and_right, exists_or, @eq_comm _ (Turn.poll _ _) t]

/-- No mark is of a frame or render call to come. -/
theorem mark_le (hc : c.isTimed = true) {key : Nat × NodeId} {n : Nat}
    (h : ((after past).marks c).get? key = some n) : n ≤ (after past).number c := by
  induction past generalizing n with
  | nil => cases c <;> cases h
  | cons t past ih =>
    rw [after] at h ⊢
    rcases turn_cases (after past) t hc with
      ⟨-, marks, number⟩ | ⟨l, r, -, -, marks, number⟩ | ⟨-, -, marks, number⟩
    · rw [marks] at h
      rw [number]
      exact Nat.le_succ_of_le (ih h)
    · rw [marks] at h
      rw [number]
      rcases OrderedMap.get?_of_put h with ⟨-, rfl⟩ | ⟨-, h⟩
      · exact Nat.le_refl _
      · exact ih h
    · rw [marks] at h
      rw [number]
      exact ih h

/-- A node has the number of the current frame or render call just if a record of it was asked about
since that began. -/
theorem marked_iff (hc : c.isTimed = true) {key : Nat × NodeId} :
    ((after past).marks c).get? key = some ((after past).number c) ↔
      Polled c key (since c past) := by
  induction past with
  | nil =>
    refine iff_of_false ?_ ?_
    · cases c <;> exact nofun
    · rintro ⟨l, r, h, -⟩
      exact List.not_mem_nil h
  | cons t past ih =>
    rw [after]
    rcases turn_cases (after past) t hc with
      ⟨begins, marks, number⟩ | ⟨l, r, rfl, rfl, marks, number⟩ | ⟨begins, other, marks, number⟩
    · rw [marks, number, since_begins begins]
      refine iff_of_false (fun h => ?_) ?_
      · exact absurd (mark_le hc h) (Nat.not_succ_le_self _)
      · rintro ⟨l, r, h, -⟩
        exact List.not_mem_nil h
    · rw [marks, number, since_cons rfl, polled_cons, OrderedMap.get?_put, ← ih]
      by_cases hk : key = (r.graph, r.node)
      · rw [if_pos hk]
        exact iff_of_true rfl (.inl ⟨l, r, rfl, rfl, hk.symm⟩)
      · rw [if_neg hk, or_iff_right]
        rintro ⟨l, r, ⟨⟩, -, rfl⟩
        exact hk rfl
    · rw [marks, number, since_cons begins, polled_cons, ih, or_iff_right]
      rintro ⟨l, r, rfl, rfl, -⟩
      exact other l r rfl rfl

/-- When a record is due: always; or if no record of the same node and the same cadence, whatever
list it stands in, was asked about since the current frame or render call began; or never. -/
theorem isDue_after : ((after past).isDue r).1 = true ↔ r.cadence = .object ∨
    r.cadence.isTimed = true ∧ ¬Polled r.cadence (r.graph, r.node) (since r.cadence past) := by
  by_cases hc : r.cadence.isTimed = true
  · rw [isDue_timed hc, Ne, marked_iff hc]
    constructor
    · intro h
      exact .inr ⟨hc, h⟩
    · rintro (h | ⟨-, h⟩)
      · rw [h] at hc
        cases hc
      · exact h
  · cases h : r.cadence with
    | none => simp [isDue_none h, Cadence.isTimed]
    | object => simp [isDue_object h]
    | frame | render =>
      rw [h] at hc
      exact absurd rfl hc

end Schedule

/-! ## The records of a build -/

/-- A table of records of a graph: each is of the node that it stands under, and refreshed at all. -/
structure Recorded (uid : Nat) (m : OrderedMap NodeId UpdateRecord) : Prop where
  nodup : m.keys.Nodup
  record : ∀ id r, m.get? id = some r → r.graph = uid ∧ r.node = id ∧ r.cadence ≠ .none

namespace Recorded

variable {uid : Nat} {m : OrderedMap NodeId UpdateRecord} {r r' : UpdateRecord}

theorem empty : Recorded uid .empty := ⟨List.nodup_nil, nofun⟩

theorem put (h : Recorded uid m) (id : NodeId) (label : String) {cadence : Cadence}
    (hc : cadence ≠ .none) : Recorded uid (m.put id ⟨uid, id, label, cadence⟩) where
  nodup := OrderedMap.nodup_keys_put h.nodup _ _
  record id' r hr := by
    rcases OrderedMap.get?_of_put hr with ⟨rfl, rfl⟩ | ⟨-, hr⟩
    · exact ⟨rfl, rfl, hc⟩
    · exact h.record id' r hr

/-- A record stands under its node. -/
theorem get? (h : Recorded uid m) (hr : r ∈ m.values) :
    m.get? r.node = some r ∧ r.graph = uid ∧ r.cadence ≠ .none := by
  obtain ⟨⟨id, r⟩, he, rfl⟩ := List.mem_map.1 hr
  have found := OrderedMap.get?_of_mem h.nodup he
  obtain ⟨graph, rfl, cadence⟩ := h.record id r found
  exact ⟨found, graph, cadence⟩

/-- No node has two records. -/
theorem eq_of_node (h : Recorded uid m) (hr : r ∈ m.values) (hr' : r' ∈ m.values)
    (hn : r.node = r'.node) : r = r' := by
  have found := (h.get? hr).1
  rw [hn, (h.get? hr').1] at found
  exact (Option.some.inj found).symm

end Recorded

/-! ### Plans -/

namespace Plan

variable {p q : Plan} {id target : NodeId}

/-- The records of a plan are records of its graph. -/
def Records (uid : Nat) (p : Plan) : Prop :=
  p.graph.uid = uid ∧ Recorded uid p.updates ∧ Recorded uid p.updatesBefore

theorem record_recorded {uid : Nat} {updates : OrderedMap NodeId UpdateRecord} {g : Graph}
    (hg : g.uid = uid) (h : Recorded uid updates) (label : String) (cadence : Cadence) :
    Recorded uid (record updates g id label cadence) := by
  unfold record
  split
  · exact h
  · next hc => exact hg ▸ (hg ▸ h).put id label hc

theorem Records.addExpansion {uid : Nat} (hs : p.host.setup.Keeps Graph.uid) (hp : p.Records uid)
    (id : NodeId) : (p.addExpansion id).2.Records uid := by
  obtain ⟨graph, updates, before⟩ := hp
  refine ⟨(addExpansion_keeps (fun _ _ => rfl) hs id).trans graph, ?_⟩
  unfold Plan.addExpansion
  split
  · exact ⟨updates, before⟩
  · exact ⟨record_recorded graph updates _ _, record_recorded graph before _ _⟩
  · exact ⟨updates, before⟩
  · exact ⟨updates, before⟩

/-- The plan of a graph records nodes of this graph. -/
theorem records_of_make {g : Graph} {options : BuildOptions} {host : Host} {roots : List NodeId}
    (h : make g options roots host = .ok p) (hs : host.setup.Keeps Graph.uid) : p.Records g.uid := by
  have both : p.host = host ∧ p.Records g.uid := by
    refine make_keeps (P := fun p => p.host = host ∧ p.Records g.uid) ?_ (fun _ hp => hp)
      (fun _ hp => hp) h ⟨rfl, rfl, .empty, .empty⟩
    intro p q id target hp ha
    have records := hp.2.addExpansion (hp.1.symm ▸ hs) id
    have same := (p.addExpansion_settings id).2
    rw [ha] at records same
    exact ⟨same.trans hp.1, records⟩
  exact both.2

end Plan

/-! ### Steps -/

/-- What a step keeps to that records nodes of the graph, if any. -/
def Law.refreshing (p : Plan) : Law where
  inv env _ := env.plan = p
  rel _ s s' := Recorded p.graph.uid s.updates → Recorded p.graph.uid s'.updates
  ends _ := True
  refl _ h := h
  trans h h' := h' ∘ h
  mono hi _ := hi
  loops _ hi := hi
  ordinary _ := trivial
  located _ := trivial

namespace Build

open Law

variable {p : Plan} {env : Env} {α : Type}

/-- Most steps do not see the records. -/
theorem refreshing_modify {f : BuildState → BuildState} (h : ∀ s, (f s).updates = s.updates) :
    (Law.refreshing p).Keeps env (modify f) := fun s _ hs => (h s).symm ▸ hs

theorem refreshing_modifyGet {f : BuildState → α × BuildState}
    (h : ∀ s, (f s).2.updates = s.updates) : (Law.refreshing p).Keeps env (modifyGet f) :=
  fun s _ hs => (h s).symm ▸ hs

theorem refreshing_modifyHere (f : StageBuild → StageBuild) :
    (Law.refreshing p).Keeps env (modifyHere f) := fun _ _ hs => hs

theorem claimGlobal_refreshing (name : String) :
    (Law.refreshing p).Keeps env (claimGlobal name) := refreshing_modifyGet fun _ => rfl

theorem claimBinding_refreshing (count : Nat) :
    (Law.refreshing p).Keeps env (claimBinding count) := refreshing_modifyGet fun _ => rfl

theorem claimVarying_refreshing (name : Option String) :
    (Law.refreshing p).Keeps env (claimVarying name) := by
  cases name with
  | some name => exact claimGlobal_refreshing _
  | none => exact refreshing_modifyGet fun _ => rfl

theorem putGroup_refreshing (group : String) (g : GroupEntry) :
    (Law.refreshing p).Keeps env (putGroup group g) := refreshing_modify fun _ => rfl

theorem groupEntry_refreshing (group : String) :
    (Law.refreshing p).Keeps env (groupEntry group) := by
  refine .get fun s => ?_
  split
  · exact .pure _
  · refine .bind (claimGlobal_refreshing _) fun block => ?_
    refine .bind (claimGlobal_refreshing _) fun inst => ?_
    exact .bind (putGroup_refreshing _ _) fun _ => .pure _

theorem uniformEntry_refreshing (key : UniformKey) (type : ValueType) (update : Cadence)
    (value : List Float32) (id : NodeId) :
    (Law.refreshing p).Keeps env (uniformEntry key type update value id) := by
  refine .get fun s => ?_
  split
  · exact .when (fun _ => .fail rfl) fun _ => .pure _
  · refine .bind (groupEntry_refreshing _) fun g => ?_
    refine .bind (claimGlobal_refreshing _) fun member => ?_
    refine .bind (putGroup_refreshing _ _) fun _ => ?_
    exact .bind (refreshing_modify fun _ => rfl) fun _ => .pure _

/-- A uniform that is refreshed is recorded under its node. -/
theorem scheduleUniform_refreshing (key : UniformKey) (update : Cadence) (id : NodeId) :
    (Law.refreshing p).Keeps env (scheduleUniform key update id) := by
  refine .ite (fun _ => .pure _) fun refreshed => ?_
  have record : (Law.refreshing p).Keeps env (do
      let uid := (← read).plan.graph.uid
      modify fun s => { s with updates := s.updates.put id ⟨uid, id, key.name, update⟩ }) := by
    refine .read fun s hi hs => ?_
    obtain rfl : env.plan = p := hi
    exact hs.put id key.name refreshed
  refine .bind (groupEntry_refreshing _) fun g => ?_
  split
  · exact .when (fun _ => .fail rfl) fun _ => record
  · exact .bind (putGroup_refreshing _ _) fun _ => record

theorem registerUniform_refreshing (id : NodeId) (name : String) (type : ValueType)
    (group : Option String) (update : Cadence) (value : List Float32) :
    (Law.refreshing p).Keeps env (registerUniform id name type group update value) := by
  unfold registerUniform
  refine .when (fun _ => .fail rfl) fun _ => ?_
  refine .bind (uniformEntry_refreshing _ _ _ _ _) fun u => ?_
  exact .bind (scheduleUniform_refreshing _ _ _) fun _ => .pure _

theorem useUniform_refreshing (group : String) (u : UniformEntry) :
    (Law.refreshing p).Keeps env (useUniform group u) := by
  refine .bind (groupEntry_refreshing _) fun g => ?_
  have declare : (Law.refreshing p).Keeps env (do
      modifyHere fun b => { b with groups := appendNew b.groups group }
      return Expr.reference (.uniform g.inst u.member)) :=
    .bind (refreshing_modifyHere _) fun _ => .pure _
  refine .ite (fun _ => ?_) fun _ => declare
  refine .bind (claimBinding_refreshing _) fun binding => ?_
  exact .bind (putGroup_refreshing _ _) fun _ => declare

theorem registerTexture_refreshing (name : String) :
    (Law.refreshing p).Keeps env (registerTexture name) := by
  refine .get fun s => ?_
  split
  · exact .pure _
  · refine .bind (claimGlobal_refreshing _) fun texture => ?_
    refine .bind (claimGlobal_refreshing _) fun sampler => ?_
    exact .bind (refreshing_modify fun _ => rfl) fun _ => .pure _

theorem useTexture_refreshing (name : String) :
    (Law.refreshing p).Keeps env (useTexture name) := by
  refine .bind (registerTexture_refreshing _) fun t => ?_
  have declare : (Law.refreshing p).Keeps env (do
      modifyHere fun b => { b with textures := appendNew b.textures name }
      return t) := .bind (refreshing_modifyHere _) fun _ => .pure _
  refine .ite (fun _ => ?_) fun _ => declare
  refine .bind (claimBinding_refreshing _) fun binding => ?_
  exact .bind (refreshing_modify fun _ => rfl) fun _ => declare

theorem registerStorage_refreshing (name : String) (element : ValueType) (count : Option UInt32)
    (access : Access) : (Law.refreshing p).Keeps env (registerStorage name element count access) := by
  refine .get fun s => ?_
  split
  · refine .when (fun _ => .fail rfl) fun _ => ?_
    exact .bind (refreshing_modify fun _ => rfl) fun _ => .pure _
  · refine .when (fun _ => .fail rfl) fun _ => ?_
    refine .bind (claimGlobal_refreshing _) fun emitted => ?_
    refine .bind (claimGlobal_refreshing _) fun block => ?_
    exact .bind (refreshing_modify fun _ => rfl) fun _ => .pure _

theorem markType_refreshing (t : ValueType) : (Law.refreshing p).Keeps env (markType t) :=
  .read (.markTypeIn trivial (fun _ => refreshing_modifyHere _) _ t)

theorem useStorage_refreshing (name : String) (b : StorageEntry) :
    (Law.refreshing p).Keeps env (useStorage name b) := by
  have declare : (Law.refreshing p).Keeps env (do
      markType b.element
      modifyHere fun h => { h with storage := appendNew h.storage name }
      return Expr.reference (.storage b.name)) :=
    .bind (markType_refreshing _) fun _ => .bind (refreshing_modifyHere _) fun _ => .pure _
  refine .ite (fun _ => ?_) fun _ => declare
  refine .bind (claimBinding_refreshing _) fun binding => ?_
  exact .bind (refreshing_modify fun _ => rfl) fun _ => declare

theorem registerAttribute_refreshing (name : String) (explicit : Option ValueType) :
    (Law.refreshing p).Keeps env (registerAttribute name explicit) := by
  refine .bind (.attributeType name explicit) fun type => ?_
  refine .when (fun _ => .fail rfl) fun _ => .get fun s => ?_
  split
  · exact .when (fun _ => .fail rfl) fun _ => .pure _
  · refine .bind (claimGlobal_refreshing _) fun emitted => ?_
    exact .bind (refreshing_modify fun _ => rfl) fun _ => .pure _

theorem useAttribute_refreshing (name : String) (explicit : Option ValueType) :
    (Law.refreshing p).Keeps env (useAttribute name explicit) := by
  refine .bind (registerAttribute_refreshing _ _) fun a => ?_
  refine .when (fun _ => refreshing_modify fun _ => rfl) fun _ => ?_
  exact .bind (refreshing_modifyHere _) fun _ => .pure _

theorem useType_refreshing (t : ValueType) : (Law.refreshing p).Keeps env (useType t) :=
  .useType markType_refreshing t

theorem buildProperty_refreshing (name : String) (type : ValueType) :
    (Law.refreshing p).Keeps env (buildProperty name type) := by
  refine .bind .here fun b => ?_
  split
  · exact .when (fun _ => .fail rfl) fun _ => .pure _
  · refine .bind (useType_refreshing type) fun _ => ?_
    refine .bind (.read (refreshing_modifyGet fun _ => rfl)) fun emitted => ?_
    exact .bind (refreshing_modifyHere _) fun _ => .pure _

theorem registerFunction_refreshing (f : FunctionId) :
    (Law.refreshing p).Keeps env (registerFunction f) :=
  .bind (.read (.pure _)) fun fuel =>
    .registerFunctionIn trivial (fun _ => claimGlobal_refreshing _)
      (fun _ => refreshing_modify fun _ => rfl) (fun _ _ => refreshing_modify fun _ => rfl) fuel [] f

theorem useFunction_refreshing (f : FunctionId) : (Law.refreshing p).Keeps env (useFunction f) :=
  .bind (.read (.pure _)) fun fuel =>
    .useFunctionIn trivial markType_refreshing registerFunction_refreshing
      (fun _ => refreshing_modifyHere _) fuel f

theorem bindName_refreshing (id : NodeId) (name : String) (frame : Option FrameId) :
    (Law.refreshing p).Keeps env (bindName id name frame) :=
  .read (.bind .here fun _ => refreshing_modify fun _ => rfl)

/-! ### Runs -/

theorem refreshing_closed : (Law.refreshing p).Closed where
  registerUniform := registerUniform_refreshing
  useUniform := useUniform_refreshing
  registerTexture := registerTexture_refreshing
  useTexture := useTexture_refreshing
  registerStorage name element count access hi :=
    (registerStorage_refreshing name element count access _ hi).and (registerStorage_entry _ _ _ _)
  useStorage name b hi _ := useStorage_refreshing name b _ hi
  registerAttribute := registerAttribute_refreshing
  useAttribute name type _ := useAttribute_refreshing name type
  useBuiltin b := by
    refine .bind .stage fun t => .when (fun _ => .fail rfl) fun _ => ?_
    exact .bind (refreshing_modifyHere _) fun _ => .pure _
  property := buildProperty_refreshing
  useType := useType_refreshing
  registerFunction := registerFunction_refreshing
  useFunction := useFunction_refreshing
  claimLocal _ := .ofKeeps (.read (refreshing_modifyGet fun _ => rfl)) fun _ => trivial
  releaseLocal _ := refreshing_modifyHere _
  claimTemp := .ofKeeps (.read (refreshing_modifyGet fun _ => rfl)) fun _ => trivial
  bindValue name _ _ := .read (bindName_refreshing _ name _)
  add _ _ hr hs := hr hs
  inBlock := fun {env step} hs s hi => by
    unfold Build.inBlock
    rw [meets_bind, meets_modifyHere, meets_bind]
    refine (hs { s with stages := s.stages.modify env.stage StageBuild.openBlock } hi).imp ?_
    intro _ s' hr
    rw [meets_bind, meets_here, meets_bind, meets_modifyHere, meets_pure]
    exact hr

theorem refreshing_unscoped : (Law.refreshing p).Unscoped where
  ends _ := trivial
  surroundings hi hp _ := hp.trans hi
  types _ _ _ hs := hs
  functions := registerFunction_refreshing
  scopes _ _ _ hs := hs

theorem registerVarying_refreshing (id source : NodeId) (name : Option String)
    (interpolation : Interpolation) (sampling : Option Sampling) :
    (Law.refreshing p).Keeps env (registerVarying id source name interpolation sampling) := by
  have enter : (Law.refreshing p).Keeps env
      (enterVarying id source name interpolation sampling) := by
    refine .bind .stage fun _ => .when (fun _ => .fail rfl) fun _ => ?_
    refine .read (.when (fun _ => .fail rfl) fun _ => ?_)
    refine .bind (typeOf_indifferent refreshing_unscoped.toIndifferent source) fun type => ?_
    refine .when (fun _ => .fail rfl) fun _ => .bind (claimVarying_refreshing name) fun emitted => ?_
    exact .bind (refreshing_modify fun _ => rfl) fun _ => .pure _
  refine .get fun s => ?_
  split
  · exact .pure _
  · exact enter

theorem writeVarying_refreshing {g : Generator} (hg : (Law.refreshing p).Runs g) (id : NodeId)
    (v : VaryingEntry) : (Law.refreshing p).Keeps env (writeVarying g id v) := by
  have write : (Law.refreshing p).Keeps (within env .vertex) (do
      let e ← g.value v.source v.type
      addStatement (.assign (.reference (.varying .vertex v.name)) e)
      modifyHere fun b => { b with varyings := appendNew b.varyings id }) := by
    refine .bind ((hg.serves refreshing_unscoped.toIndifferent).value _) fun e => ?_
    exact .bind (refreshing_modifyHere _) fun _ => refreshing_modifyHere _
  refine .ite (fun _ => .pure _) fun _ => ?_
  refine .bind (write.inStage (fun s hi => ?_) (fun _ _ hr => hr) fun _ he => he) fun _ => ?_
  · unfold within
    split <;> exact hi
  · refine refreshing_modify fun s => ?_
    split <;> rfl

/-- The code of a node keeps to the law when that of the nodes below it does. -/
theorem generateNode_refreshing {g : Generator} (hg : (Law.refreshing p).Runs g) {id : NodeId}
    {n : Node} (hn : env.plan.node id = .ok n) :
    (Law.refreshing p).Keeps env (generateNode g id n) := by
  refine refreshing_unscoped.generateNode refreshing_closed hg hn ?_ ?_
  · rintro source name interpolation sampling -
    refine .bind .stage fun t => .when (fun _ => .fail rfl) fun _ => ?_
    refine .bind (registerVarying_refreshing id source name interpolation sampling) fun v => ?_
    refine .bind (writeVarying_refreshing hg id v) fun _ => ?_
    exact .when (fun _ => refreshing_modifyHere _) fun _ => .pure _
  · rintro value name readOnly -
    refine .buildVariable refreshing_closed.toStraight
      (typeOf_indifferent refreshing_unscoped.toIndifferent id)
      (hg.serves refreshing_unscoped.toIndifferent) fun _ _ _ _ => ?_
    refine .bind (.mutability value readOnly) fun m => .bind (.recordKey id) fun key => ?_
    exact .bind (refreshing_modifyHere _) fun _ => bindName_refreshing id _ none

theorem generator_refreshing (fuel : Nat) : (Law.refreshing p).Runs (generator fuel) := by
  refine generator_runs (fun _ => refreshing_unscoped) (fun _ => refreshing_closed.toPlain)
    (fun _ fuel id env s => (meets_true _).imp fun _ _ _ => trivial) ?_ fuel .vertex
  intro _ depth env s id n hg hi hn
  exact (generateNode_refreshing (hg .vertex) hn s hi).imp fun _ _ hr => hr

theorem analyze_refreshing (id : NodeId) : (Law.refreshing p).Keeps env (analyze id) := by
  have roams : (Law.refreshing p).Roams :=
    refreshing_unscoped.roams fun hi hp => hp.trans hi
  refine .read (roams.analyzeIn refreshing_closed.enters (fun _ _ _ hs => hs) ?_ _ id)
  exact fun _ m source name interpolation sampling _ =>
    registerVarying_refreshing m source name interpolation sampling

/-- A run only adds records of its plan's graph to those of the plan. -/
theorem run_recorded {s : BuildState} {rs : List (Stage × NodeId)} (h : run p rs = .ok s)
    (start : Recorded p.graph.uid p.updates) : Recorded p.graph.uid s.updates := by
  obtain ⟨s₀, hanalyze, hgenerate⟩ := of_run h
  have walk : ∀ r ∈ rs, (Law.refreshing p).Keeps (Env.root p (rs.map Prod.fst) r.1) (analyze r.2) :=
    fun r _ => analyze_refreshing r.2
  have begins : ∀ r ∈ rs,
      (Law.refreshing p).inv (Env.root p (rs.map Prod.fst) r.1) (BuildState.start p) :=
    fun _ _ => rfl
  have first := Law.Keeps.atRoots begins walk
  rw [hanalyze] at first
  have second := generate_keeps (L := fun _ => Law.refreshing p) (M := Law.refreshing p)
    (fun _ => refreshing_unscoped) (fun fuel _ => generator_refreshing fuel)
    (fun _ _ _ => refreshing_modifyHere _) (fun _ _ hi => hi) (fun _ _ _ hr => hr)
    (fun _ => trivial) (fun _ => rfl) hgenerate
  exact second (first start)

end Build

open Schedule

namespace Artifact

variable {a : Artifact} {l : RecordList} {r r' : UpdateRecord} {past : List Turn}

/-- One of the two lists of records. -/
def records (a : Artifact) : RecordList → List UpdateRecord
  | .updates => a.updates
  | .before => a.updatesBefore

/-- Of the turns, those that ask do so about records of the build. -/
def Polls (a : Artifact) (past : List Turn) : Prop :=
  ∀ l r, .poll l r ∈ past → r ∈ a.records l

/-- What the cadence of a record promises: it is due when it is asked about for the first time in a
frame or in a render call, each time, or never. -/
def Promised (past : List Turn) (l : RecordList) (r : UpdateRecord) : Prop :=
  match r.cadence with
  | .none => False
  | .object => True
  | .frame => .poll l r ∉ since .frame past
  | .render => .poll l r ∉ since .render past

theorem promised_timed (hc : r.cadence.isTimed = true) :
    Promised past l r ↔ .poll l r ∉ since r.cadence past := by
  unfold Promised
  cases h : r.cadence with
  | none | object =>
    rw [h] at hc
    cases hc
  | frame | render => rfl

/-- Whatever was done before, each record is due when its cadence promises that. -/
def Honoured (a : Artifact) : Prop :=
  ∀ past, a.Polls past → ∀ l, ∀ r ∈ a.records l,
    ((after past).isDue r).1 = true ↔ Promised past l r

/-- The records are kept by node, in both lists. -/
structure Refreshes (a : Artifact) (uid : Nat) : Prop where
  table : ∀ l, ∃ m, Recorded uid m ∧ m.values = a.records l

namespace Refreshes

variable {uid : Nat}

theorem graph (h : a.Refreshes uid) (hr : r ∈ a.records l) : r.graph = uid := by
  obtain ⟨m, hm, values⟩ := h.table l
  exact (hm.get? (values ▸ hr)).2.1

theorem timed_or_object (h : a.Refreshes uid) (hr : r ∈ a.records l) :
    r.cadence.isTimed = true ∨ r.cadence = .object := by
  obtain ⟨m, hm, values⟩ := h.table l
  have refreshed := (hm.get? (values ▸ hr)).2.2
  cases hc : r.cadence with
  | none => exact absurd hc refreshed
  | object => exact .inr rfl
  | frame | render => exact .inl rfl

theorem eq_of_node (h : a.Refreshes uid) (hr : r ∈ a.records l) (hr' : r' ∈ a.records l)
    (hn : r.node = r'.node) : r = r' := by
  obtain ⟨m, hm, values⟩ := h.table l
  exact hm.eq_of_node (values ▸ hr) (values ▸ hr') hn

/-- Of a node and a cadence, the record itself was asked about or the one in the other list. -/
theorem polled_iff (h : a.Refreshes uid) (hp : a.Polls past) (hr : r ∈ a.records l) :
    Polled r.cadence (r.graph, r.node) (since r.cadence past) ↔
      .poll l r ∈ since r.cadence past ∨ ∃ r' ∈ a.records l.other, r'.node = r.node ∧
        r'.cadence = r.cadence ∧ .poll l.other r' ∈ since r.cadence past := by
  constructor
  · rintro ⟨l', r', hmem, hcadence, hkey⟩
    have hr' : r' ∈ a.records l' := hp l' r' ((List.takeWhile_sublist _).subset hmem)
    have node : r'.node = r.node := congrArg Prod.snd hkey
    by_cases hl : l' = l
    · subst hl
      obtain rfl := h.eq_of_node hr' hr node
      exact .inl hmem
    · obtain rfl : l' = l.other := by cases l <;> cases l' <;> first | rfl | exact absurd rfl hl
      exact .inr ⟨r', hr', node, hcadence, hmem⟩
  · rintro (hmem | ⟨r', hr', node, cadence, hmem⟩)
    · exact ⟨l, r, hmem, rfl, rfl⟩
    · exact ⟨l.other, r', hmem, cadence, by rw [h.graph hr', h.graph hr, node]⟩

/-- A record is due when that is promised, unless the record of its node in the other list, of the
same cadence, was asked about since the frame or render call began. -/
theorem isDue_iff (h : a.Refreshes uid) (hp : a.Polls past) (hr : r ∈ a.records l) :
    ((after past).isDue r).1 = true ↔ Promised past l r ∧
      ∀ r' ∈ a.records l.other, r'.node = r.node → r'.cadence = r.cadence →
        r.cadence.isTimed = true → .poll l.other r' ∉ since r.cadence past := by
  rcases h.timed_or_object hr with hc | object
  · have timed : r.cadence ≠ .object := fun he => by
      rw [he] at hc
      cases hc
    rw [isDue_after, or_iff_right timed, and_iff_right hc, h.polled_iff hp hr, promised_timed hc,
      not_or]
    refine and_congr_right fun _ => ?_
    constructor
    · intro none r' hr' node cadence _ hmem
      exact none ⟨r', hr', node, cadence, hmem⟩
    · rintro none ⟨r', hr', node, cadence, hmem⟩
      exact none r' hr' node cadence hc hmem
  · rw [isDue_after, Promised, object]
    exact iff_of_true (.inl rfl) ⟨trivial, fun r' _ _ _ timed => by cases timed⟩

/-- All is as promised just if no node stands in both lists with one cadence that counts frames or
render calls. -/
theorem honoured_iff (h : a.Refreshes uid) : a.Honoured ↔
    ∀ r ∈ a.updates, ∀ r' ∈ a.updatesBefore, r.node = r'.node → r.cadence = r'.cadence →
      r.cadence = .object := by
  constructor
  · intro honoured r hr r' hr' node cadence
    refine (h.timed_or_object (l := .updates) hr).resolve_left fun timed => ?_
    -- only the record of the other list is asked about, and then this one
    have polls : a.Polls [.poll .before r'] := by
      rintro l r'' hmem
      cases List.mem_singleton.1 hmem
      exact hr'
    have recent : since r.cadence [.poll .before r'] = [.poll .before r'] := since_cons rfl
    have promised : Promised [.poll .before r'] .updates r := by
      rw [promised_timed timed, recent]
      intro hmem
      cases List.mem_singleton.1 hmem
    have due := (honoured _ polls .updates r hr).2 promised
    rw [h.isDue_iff (l := .updates) polls hr] at due
    refine due.2 r' hr' node.symm cadence.symm timed ?_
    rw [recent]
    exact List.mem_singleton_self _
  · intro apart past polls l r hr
    rw [h.isDue_iff polls hr]
    refine and_iff_left fun r' hr' node cadence timed => ?_
    have object : r.cadence = .object := by
      cases l with
      | updates => exact apart r hr r' hr' node.symm cadence.symm
      | before => exact cadence ▸ apart r' hr' r hr node cadence
    rw [object] at timed
    cases timed

end Refreshes

end Artifact

variable {g : Graph} {request : BuildRequest} {options : BuildOptions} {host : Host} {a : Artifact}

/-- Both lists of a build record nodes of the graph, each under its node. -/
theorem refreshes_of_build (h : build g request options host = .ok a)
    (hs : host.setup.Keeps Graph.uid) : a.Refreshes g.uid := by
  obtain ⟨p, s, hmake, hrun, hartifact⟩ := of_build h
  obtain ⟨uid, updates, before⟩ := Plan.records_of_make hmake hs
  have recorded : Recorded g.uid s.updates := uid ▸ Build.run_recorded hrun (uid.symm ▸ updates)
  unfold BuildState.artifact at hartifact
  obtain ⟨programs, -, ha⟩ := bind_ok hartifact
  cases ha
  refine ⟨fun l => ?_⟩
  cases l with
  | updates => exact ⟨s.updates, recorded, rfl⟩
  | before => exact ⟨p.updatesBefore, before, rfl⟩

/-- When the records of a build are due, whatever frames and render calls began before and whatever
was asked; setups do not put another graph in the place of theirs. Each record keeps the promise of
its cadence, unless the record of the same node and the same cadence in the other list was asked about
since the frame or render call began. So all promises are kept just if no node is recorded in both
lists to be refreshed once in each frame, or once in each render call. -/
theorem polls_of_build (h : build g request options host = .ok a)
    (hs : host.setup.Keeps Graph.uid) :
    (∀ past, a.Polls past → ∀ l, ∀ r ∈ a.records l,
      (((after past).isDue r).1 = true ↔ Artifact.Promised past l r ∧
        ∀ r' ∈ a.records l.other, r'.node = r.node → r'.cadence = r.cadence →
          r.cadence.isTimed = true → .poll l.other r' ∉ since r.cadence past)) ∧
      (a.Honoured ↔ ∀ r ∈ a.updates, ∀ r' ∈ a.updatesBefore, r.node = r'.node →
        r.cadence = r'.cadence → r.cadence = .object) :=
  have refreshes := refreshes_of_build h hs
  ⟨fun _ hp _ _ hr => refreshes.isDue_iff hp hr, refreshes.honoured_iff⟩

/-- A custom node stands for a uniform that is refreshed in each frame; it is refreshed in each frame
itself, and ahead of the others at some cadence. -/
def refreshed (before : Cadence) : Graph := .ofNodes
  [.uniform "time" .float none .frame [],
    .custom (.mk "wobble" .frame before (.subgraph [] (.absolute ⟨0⟩)))]

/-- Descriptions leave the number of a graph alone. -/
theorem keeps_uid : Host.plain.setup.Keeps Graph.uid :=
  Custom.setup_keeps (fun _ _ => rfl) fun _ _ _ => rfl

/-- The records of `refreshed`. -/
theorem refreshed_records (before : Cadence) (hb : before = .frame ∨ before = .render) :
    ∃ a, build (refreshed before) ⟨none, some ⟨1⟩, none⟩ .standard = .ok a ∧
      a.updates = [⟨1, ⟨1⟩, "wobble", .frame⟩, ⟨1, ⟨0⟩, "time", .frame⟩] ∧
        a.updatesBefore = [⟨1, ⟨1⟩, "wobble", before⟩] := by
  have lists : (build (refreshed before) ⟨none, some ⟨1⟩, none⟩ .standard).toOption.map
      (fun a => (a.updates, a.updatesBefore)) =
        some ([⟨1, ⟨1⟩, "wobble", .frame⟩, ⟨1, ⟨0⟩, "time", .frame⟩],
          [⟨1, ⟨1⟩, "wobble", before⟩]) := by
    rcases hb with rfl | rfl
    · decide +kernel
    · decide +kernel
  cases built : build (refreshed before) ⟨none, some ⟨1⟩, none⟩ .standard with
  | error e =>
    rw [built] at lists
    cases lists
  | ok a =>
    rw [built] at lists
    obtain ⟨updates, updatesBefore⟩ := Prod.mk.inj (Option.some.inj lists)
    exact ⟨a, rfl, updates, updatesBefore⟩

/-- Refreshed in each frame, and ahead of the others in each render call: all records are due as
promised. -/
theorem refreshed_honoured :
    ∃ a, build (refreshed .render) ⟨none, some ⟨1⟩, none⟩ .standard = .ok a ∧
      a.updates = [⟨1, ⟨1⟩, "wobble", .frame⟩, ⟨1, ⟨0⟩, "time", .frame⟩] ∧
        a.updatesBefore = [⟨1, ⟨1⟩, "wobble", .render⟩] ∧ a.Honoured := by
  obtain ⟨a, built, updates, updatesBefore⟩ := refreshed_records .render (.inr rfl)
  refine ⟨a, built, updates, updatesBefore, (polls_of_build built keeps_uid).2.2 ?_⟩
  rw [updates, updatesBefore]
  decide

/-- Refreshed in each frame, and ahead of the others in each frame: once the one record was asked
about, the other is not due in this frame any more. -/
theorem refreshed_suppressed :
    ∃ a, build (refreshed .frame) ⟨none, some ⟨1⟩, none⟩ .standard = .ok a ∧
      a.updates = [⟨1, ⟨1⟩, "wobble", .frame⟩, ⟨1, ⟨0⟩, "time", .frame⟩] ∧
        a.updatesBefore = [⟨1, ⟨1⟩, "wobble", .frame⟩] ∧ ¬a.Honoured := by
  obtain ⟨a, built, updates, updatesBefore⟩ := refreshed_records .frame (.inl rfl)
  refine ⟨a, built, updates, updatesBefore, fun honoured => ?_⟩
  have object := (refreshes_of_build built keeps_uid).honoured_iff.1 honoured
  rw [updates, updatesBefore] at object
  cases object _ (.head _) _ (.head _) rfl rfl

end ShaderGraph
