import Mathlib.Tactic.FinCases
import ShaderGraph.Proofs.Signature
import ShaderGraph.Proofs.TwinArtifact

/-!
# Sessions with a program cache

A session creates, copies and composes graphs, and asks a program cache for their builds in between.
Whatever is asked for, the answer is that of a build of the graph as it is then, up to labels
(`Session.answers_true`).

* `Author.Completed` are the calls that compose a graph. Such a call changes at most labels, or it
  raises the version (`Author.Completed.advances`).
* `ProgramCache.Stores` says where an artifact is remembered.
* `Session.Sound` is what each event preserves: what is remembered was the answer to an earlier
  request, and graphs only advance from how they were then.
-/

namespace ShaderGraph

variable {α β : Type}

/-! ### Composing -/

/-- The calls that compose a graph, one after the other. What is composed may depend on what the graph
holds so far. -/
inductive Author.Completed : ∀ {α : Type}, AuthorT Id α → Prop
  | pure {α : Type} (a : α) : Completed (pure a)
  | bind {α β : Type} {step : AuthorT Id α} {next : α → AuthorT Id β} (h : Completed step)
      (hn : ∀ a, Completed (next a)) : Completed (step >>= next)
  | get : Completed (MonadState.get : AuthorT Id Graph)
  | push (node : Node) : Completed (Author.push node)
  | replace (id : NodeId) (node : Node) : Completed (Author.replace id node)
  | setLabel (id : NodeId) (label : String) : Completed (Author.setLabel id label)
  | nativeFunction (source : String) (dialect : Dialect) (includes : List FunctionId) :
      Completed (Author.nativeFunction source dialect includes)
  | defaultUv : Completed Author.defaultUv
  | loop (params : List (LoopParam NodeId)) {body : List NodeId → AuthorT Id NodeId}
      (h : ∀ counters, Completed (body counters)) : Completed (Author.loop params body)

/-- A later state of a graph: another version of it, or the same version with other labels. -/
def Graph.Advances (g g' : Graph) : Prop :=
  g.uid = g'.uid ∧ (g.version < g'.version ∨ g.version = g'.version ∧ g.Twin g')

/-- A state of a graph whose version is not lower. -/
def Graph.Grows (g g' : Graph) : Prop := g.uid = g'.uid ∧ g.version ≤ g'.version

namespace Graph

variable {g g' g'' : Graph}

theorem Advances.refl (g : Graph) : g.Advances g := ⟨rfl, .inr ⟨rfl, .refl g⟩⟩

theorem Advances.trans (h : g.Advances g') (h' : g'.Advances g'') : g.Advances g'' := by
  refine ⟨h.1.trans h'.1, ?_⟩
  rcases h.2 with lower | ⟨same, twin⟩
  · rcases h'.2 with lower' | ⟨same', -⟩
    · exact .inl (lower.trans lower')
    · exact .inl (same' ▸ lower)
  · rcases h'.2 with lower' | ⟨same', twin'⟩
    · exact .inl (same ▸ lower')
    · exact .inr ⟨same.trans same', twin.trans twin'⟩

theorem Advances.grows (h : g.Advances g') : g.Grows g' :=
  ⟨h.1, h.2.elim Nat.le_of_lt fun h => h.1.le⟩

theorem Grows.refl (g : Graph) : g.Grows g := ⟨rfl, le_rfl⟩

theorem Grows.trans (h : g.Grows g') (h' : g'.Grows g'') : g.Grows g'' :=
  ⟨h.1.trans h'.1, h.2.trans h'.2⟩

theorem advances_push (g : Graph) (n : Node) : g.Advances (g.push n).2 :=
  ⟨rfl, .inl (Nat.lt_succ_self _)⟩

theorem advances_replace (g : Graph) (id : NodeId) (n : Node) : g.Advances (g.replace id n) := by
  unfold replace
  split
  · exact ⟨rfl, .inl (Nat.lt_succ_self _)⟩
  · exact .refl g

theorem advances_setLabel (g : Graph) (id : NodeId) (l : String) : g.Advances (g.setLabel id l) :=
  ⟨rfl, .inr ⟨rfl, rfl, rfl, (nodes_setLabel g id l).symm, rfl, rfl⟩⟩

end Graph

/-- A step of an author after which a graph is related by `R` to how it was before. -/
def Author.Leads (R : Graph → Graph → Prop) (step : AuthorT Id α) : Prop := ∀ g, R g (step g).2

namespace Author

variable {R : Graph → Graph → Prop}

theorem Leads.bind (trans : ∀ {g g' g''}, R g g' → R g' g'' → R g g'') {step : AuthorT Id α}
    {next : α → AuthorT Id β} (h : Leads R step) (hn : ∀ a, Leads R (next a)) :
    Leads R (step >>= next) :=
  fun g => trans (h g) (hn (step g).1 (step g).2)

theorem Leads.mapM {ι : Type} (refl : ∀ g, R g g)
    (trans : ∀ {g g' g''}, R g g' → R g' g'' → R g g'')
    {step : ι → AuthorT Id α} (h : ∀ i, Leads R (step i)) (is : List ι) :
    Leads R (is.mapM step) := by
  induction is with
  | nil =>
    rw [List.mapM_nil]
    exact refl
  | cons i rest ih =>
    rw [List.mapM_cons]
    exact .bind (R := R) trans (h i) fun a => .bind (R := R) trans ih fun as => refl

theorem get_bind (next : Graph → AuthorT Id α) (g : Graph) : (get >>= next) g = next g g := rfl

/-- A call that composes a graph changes at most labels, or it raises the version. -/
theorem Completed.advances {step : AuthorT Id α} (h : Completed step) :
    Leads Graph.Advances step := by
  induction h with
  | pure a => exact fun g => .refl g
  | bind _ _ ih ihn => exact .bind .trans ih ihn
  | get => exact fun g => .refl g
  | push node => exact fun g => g.advances_push node
  | replace id node => exact fun g => g.advances_replace id node
  | setLabel id label => exact fun g => g.advances_setLabel id label
  | nativeFunction source dialect includes => exact fun g => ⟨rfl, .inl (Nat.lt_succ_self _)⟩
  | defaultUv =>
    intro g
    rw [Author.defaultUv, get_bind]
    cases g.defaultUv with
    | some id => exact .refl g
    | none => exact ⟨rfl, .inl (Nat.lt_succ_of_lt (Nat.lt_succ_self _))⟩
  | @loop params body _ ih =>
    -- the body is put in without a change of version, but the loop itself was one
    have after : ∀ node, Leads Graph.Grows (do
        let counters ← (List.range params.length).mapM fun i => Author.push (.loopIndex node i)
        let body ← body counters
        modify fun g => g.closeLoop node body
        return node) := by
      intro node
      refine .bind .trans (.mapM .refl .trans (fun i g => (g.advances_push _).grows) _)
        fun counters => ?_
      refine .bind .trans (fun g => (ih counters g).grows) fun body => ?_
      exact .bind .trans (fun g => ⟨rfl, le_rfl⟩) fun _ g => .refl g
    intro g
    obtain ⟨uid, version⟩ := after (g.push (.loop params none)).1 (g.push (.loop params none)).2
    exact ⟨uid, .inl (Nat.lt_of_succ_le version)⟩

end Author

/-! ### The cache -/

namespace ProgramCache

variable {c : ProgramCache} {g : Graph} {request : BuildRequest} {options : BuildOptions}
  {host : Host}

/-- An artifact is remembered for a version of a graph, under a number. -/
def Stores (c : ProgramCache) (uid version : Nat) (key : UInt64) (p : CachedProgram) : Prop :=
  ∃ known, c.graphs.get? uid = some known ∧ known.version = version ∧
    known.programs.get? key = some p

theorem version_current : (c.current g).version = g.version := by
  unfold current
  split
  · split
    · next same => exact same
    · rfl
  · rfl

theorem stores_of_current {key : UInt64} {p : CachedProgram}
    (h : (c.current g).programs.get? key = some p) : c.Stores g.uid g.version key p := by
  unfold current at h
  split at h
  · next known hk =>
    split at h
    · next same => exact ⟨known, hk, same, h⟩
    · cases h
  · cases h

/-- What is remembered once the programs of a graph are replaced was so before or is among the new
ones. -/
theorem stores_of_put {c' : ProgramCache} {uid version : Nat} {key : UInt64} {p : CachedProgram}
    {known : GraphPrograms} (hc : c'.graphs = c.graphs.put g.uid known)
    (h : c'.Stores uid version key p) :
    c.Stores uid version key p ∨
      uid = g.uid ∧ version = known.version ∧ known.programs.get? key = some p := by
  obtain ⟨found, hf, hv, hp⟩ := h
  rw [hc, OrderedMap.get?_put] at hf
  split at hf
  · next same =>
    obtain rfl := Option.some.inj hf
    exact .inr ⟨same, hv.symm, hp⟩
  · exact .inl ⟨found, hf, hv, hp⟩

/-- An answer is an artifact that is remembered, or it is that of a build. -/
theorem getOrBuild_answer :
    (∃ p, c.Stores g.uid g.version (signature request options) p ∧
        (c.getOrBuild g request options host).1 = .ok p) ∨
      (c.getOrBuild g request options host).1.map CachedProgram.artifact =
        build g request options host := by
  unfold getOrBuild
  dsimp only
  split
  · next p hp => exact .inl ⟨p, stores_of_current hp, rfl⟩
  · split
    · next f hb => exact .inr hb.symm
    · next a hb => exact .inr hb.symm

/-- What is remembered after a request was so before, or it was built just now. -/
theorem stores_getOrBuild {uid version : Nat} {key : UInt64} {p : CachedProgram}
    (h : (c.getOrBuild g request options host).2.Stores uid version key p) :
    c.Stores uid version key p ∨ uid = g.uid ∧ version = g.version ∧
      key = signature request options ∧ build g request options host = .ok p.artifact := by
  have kept : ∀ {c' : ProgramCache}, c'.graphs = c.graphs.put g.uid (c.current g) →
      c'.Stores uid version key p → c.Stores uid version key p := by
    intro c' hc h
    rcases stores_of_put hc h with before | ⟨rfl, rfl, hp⟩
    · exact before
    · rw [version_current]
      exact stores_of_current hp
  unfold getOrBuild at h
  dsimp only at h
  split at h
  · exact .inl (kept rfl h)
  · split at h
    · exact .inl (kept rfl h)
    · next a hb =>
      rcases stores_of_put rfl h with before | ⟨rfl, rfl, hp⟩
      · exact .inl before
      · rw [OrderedMap.get?_put] at hp
        split at hp
        · next same =>
          obtain rfl := Option.some.inj hp
          exact .inr ⟨rfl, version_current, same, hb⟩
        · rw [version_current]
          exact .inl (stores_of_current hp)

theorem get?_of_erase {κ : Type} [DecidableEq κ] {m : OrderedMap κ α} {k k' : κ} {a : α}
    (h : (m.erase k).get? k' = some a) : m.get? k' = some a := by
  obtain ⟨entries⟩ := m
  change OrderedMap.find? k' (entries.filter fun e => e.1 ≠ k) = some a at h
  show OrderedMap.find? k' entries = some a
  have erased : ∀ entries : List (κ × α), OrderedMap.find? k' (entries.filter fun e => e.1 ≠ k) =
      if k' = k then none else OrderedMap.find? k' entries := by
    intro entries
    induction entries with
    | nil => simp [OrderedMap.find?]
    | cons e rest ih =>
      by_cases he : e.1 = k
      · rw [List.filter_cons_of_neg (by simpa using he), ih, OrderedMap.find?]
        split
        · rfl
        · next other => rw [if_neg fun e' => other (e'.trans he)]
      · rw [List.filter_cons_of_pos (by simpa using he), OrderedMap.find?, OrderedMap.find?, ih]
        split
        · next first => rw [if_neg fun e' => he (first.symm.trans e')]
        · rfl
  rw [erased] at h
  split at h
  · cases h
  · exact h

theorem stores_of_forget {uid uid' version : Nat} {key : UInt64} {p : CachedProgram}
    (h : (c.forget uid').Stores uid version key p) : c.Stores uid version key p := by
  obtain ⟨known, hk, rest⟩ := h
  exact ⟨known, get?_of_erase hk, rest⟩

end ProgramCache

/-! ### Events -/

/-- A request for a build and what the cache answered. -/
structure Answer where
  /-- The graph as it was when it was asked for. -/
  graph : Graph
  request : BuildRequest
  options : BuildOptions
  result : Except Failure CachedProgram

/-- Graphs, a cache of their builds and what was asked of it. -/
structure Session where
  workspace : Workspace
  cache : ProgramCache
  /-- The answers, the last one first. -/
  answers : List Answer

/-- Something that happens in a session. Graphs go by their positions. -/
inductive Event where
  | create
  | copy (graph : Nat)
  | compose (graph : Nat) (call : AuthorT Id Unit)
  | get (graph : Nat) (request : BuildRequest) (options : BuildOptions)
  | forget (uid : Nat)
  | clear

/-- Calls that compose a graph are completed ones. -/
def Event.Completed : Event → Prop
  | .compose _ call => Author.Completed call
  | _ => True

/-- What is asked for. -/
def Event.asked : Event → Option (BuildRequest × BuildOptions)
  | .get _ request options => some (request, options)
  | _ => none

namespace Session

/-- A session at its start. -/
def start : Session := ⟨.empty, .empty, []⟩

/-- What is done to the graph at a position, if there is one. -/
def withGraph (s : Session) (i : Nat) (f : Graph → Session) : Session :=
  match s.workspace.get? i with
  | some g => f g
  | none => s

/-- The session after an event; `host` is what builds run in. -/
def step (host : Host) (s : Session) : Event → Session
  | .create => { s with workspace := s.workspace.create.2 }
  | .copy i => s.withGraph i fun g => { s with workspace := (s.workspace.copy g).2 }
  | .compose i call => s.withGraph i fun g => { s with workspace := s.workspace.set i (call g).2 }
  | .get i request options => s.withGraph i fun g =>
    let (result, cache) := s.cache.getOrBuild g request options host
    { s with cache := cache, answers := ⟨g, request, options, result⟩ :: s.answers }
  | .forget uid => { s with cache := s.cache.forget uid }
  | .clear => { s with cache := s.cache.clear }

/-- The session after some events. -/
def run (host : Host) (events : List Event) : Session := events.foldl (step host) start

/-- What each event of a session preserves. `asked` lists the requests that may come. -/
structure Sound (host : Host) (asked : List (BuildRequest × BuildOptions)) (s : Session) : Prop where
  /-- Each graph has a number of its own. -/
  apart : ∀ i j g g', s.workspace.get? i = some g → s.workspace.get? j = some g' →
    g.uid = g'.uid → i = j
  numbered : ∀ i g, s.workspace.get? i = some g → g.uid < s.workspace.nextUid
  known : ∀ a ∈ s.answers, a.graph.uid < s.workspace.nextUid
  /-- Graphs have only advanced since they were asked for. -/
  advanced : ∀ a ∈ s.answers, ∀ i g, s.workspace.get? i = some g → a.graph.uid = g.uid →
    a.graph.Advances g
  requested : ∀ a ∈ s.answers, (a.request, a.options) ∈ asked
  /-- What is remembered was built for an answer. -/
  built : ∀ uid version key p, s.cache.Stores uid version key p → ∃ a ∈ s.answers,
    a.graph.uid = uid ∧ a.graph.version = version ∧
      ProgramCache.signature a.request a.options = key ∧
      build a.graph a.request a.options host = .ok p.artifact
  /-- An answer is a build of the graph, or of the graph under labels that it had when it was asked
  for before. -/
  built_answer : ∀ a ∈ s.answers,
    a.result.map CachedProgram.artifact = build a.graph a.request a.options host ∨
      ∃ a' ∈ s.answers, a'.graph.Twin a.graph ∧ ∃ b,
        a.result.map CachedProgram.artifact = .ok b ∧
          build a'.graph a.request a.options host = .ok b
  counted : s.cache.hits + s.cache.misses = s.answers.length

variable {host : Host} {asked : List (BuildRequest × BuildOptions)} {s : Session}

theorem Sound.start : Sound host asked Session.start where
  apart i _ g _ h := by
    have none : (#[] : Array Graph)[i]? = some g := h
    simp at none
  numbered i g h := by
    have none : (#[] : Array Graph)[i]? = some g := h
    simp at none
  known _ h := nomatch h
  advanced _ h := nomatch h
  requested _ h := nomatch h
  built := by
    rintro uid version key p ⟨known, hk, -⟩
    cases hk
  built_answer _ h := nomatch h
  counted := rfl

/-- A graph under a new number is added. -/
theorem Sound.add (h : Sound host asked s) {g : Graph} (hg : g.uid = s.workspace.nextUid) :
    Sound host asked { s with workspace := ⟨s.workspace.graphs.push g, s.workspace.nextUid + 1⟩ } := by
  have old : ∀ i g', (s.workspace.graphs.push g)[i]? = some g' →
      i = s.workspace.graphs.size ∧ g' = g ∨ s.workspace.get? i = some g' := by
    intro i g' hi
    rw [Array.getElem?_push] at hi
    split at hi
    · next last => exact .inl ⟨last, (Option.some.inj hi).symm⟩
    · exact .inr hi
  have fresh : ∀ i g', s.workspace.get? i = some g' → g'.uid ≠ g.uid := fun i g' hi =>
    hg ▸ (h.numbered i g' hi).ne
  refine { h with apart := ?_, numbered := ?_, known := ?_, advanced := ?_ }
  · intro i j g' g'' hi hj same
    rcases old i g' hi with ⟨atEnd, rfl⟩ | before
    · rcases old j g'' hj with ⟨atEnd', -⟩ | before'
      · exact atEnd.trans atEnd'.symm
      · exact absurd same.symm (fresh j g'' before')
    · rcases old j g'' hj with ⟨-, rfl⟩ | before'
      · exact absurd same (fresh i g' before)
      · exact h.apart i j g' g'' before before' same
  · intro i g' hi
    rcases old i g' hi with ⟨-, rfl⟩ | hi
    · exact hg ▸ Nat.lt_succ_self _
    · exact Nat.lt_succ_of_lt (h.numbered i g' hi)
  · exact fun a ha => Nat.lt_succ_of_lt (h.known a ha)
  · intro a ha i g' hi same
    rcases old i g' hi with ⟨-, rfl⟩ | hi
    · exact absurd (same.trans hg) (h.known a ha).ne
    · exact h.advanced a ha i g' hi same

/-- A graph advances. -/
theorem Sound.compose (h : Sound host asked s) {i : Nat} {g g' : Graph}
    (hg : s.workspace.get? i = some g)
    (ha : g.Advances g') : Sound host asked { s with workspace := s.workspace.set i g' } := by
  have old : ∀ j g'', (s.workspace.set i g').get? j = some g'' →
      j = i ∧ g'' = g' ∨ s.workspace.get? j = some g'' := by
    intro j g'' hj
    have changed : (s.workspace.graphs.setIfInBounds i g')[j]? = some g'' := hj
    rw [Array.getElem?_setIfInBounds] at changed
    split at changed
    · next same =>
      split at changed
      · exact .inl ⟨same.symm, (Option.some.inj changed).symm⟩
      · cases changed
    · exact .inr changed
  refine { h with apart := ?_, numbered := ?_, advanced := ?_ }
  · intro j k g₁ g₂ hj hk same
    rcases old j g₁ hj with ⟨there, rfl⟩ | before
    · rcases old k g₂ hk with ⟨there', -⟩ | before'
      · exact there.trans there'.symm
      · exact there ▸ h.apart i k g g₂ hg before' (ha.1.trans same)
    · rcases old k g₂ hk with ⟨there', rfl⟩ | before'
      · exact there' ▸ h.apart j i g₁ g before hg (same.trans ha.1.symm)
      · exact h.apart j k g₁ g₂ before before' same
  · intro j g₁ hj
    rcases old j g₁ hj with ⟨-, rfl⟩ | hj
    · exact ha.1 ▸ h.numbered i g hg
    · exact h.numbered j g₁ hj
  · intro a hm j g₁ hj same
    rcases old j g₁ hj with ⟨-, rfl⟩ | hj
    · exact (h.advanced a hm i g hg (same.trans ha.1.symm)).trans ha
    · exact h.advanced a hm j g₁ hj same

/-- A build of a twin with twin settings gives the same artifact. -/
theorem build_ok_of_twin {g g' : Graph} {o o' : BuildOptions} {request : BuildRequest} {a : Artifact}
    (hg : g.Twin g') (ho : o.Twin True o') (labels : g = g' ∨ host.setup.IgnoresLabels)
    (h : build g request o host = .ok a) : build g' request o' host = .ok a := by
  have same := build_twin hg ho request host labels
  rw [h] at same
  obtain ⟨e, e', he, -⟩ | ⟨b, b', hb, hb', alike⟩ := same.both
  · cases he
  · rw [hb', ← alike.eq trivial, ← Except.ok.inj hb]

section Requests

variable (listed : ∀ k ∈ asked, k.2.Listed)
  (signed : ∀ k ∈ asked, ∀ k' ∈ asked,
    ProgramCache.signature k.1 k.2 = ProgramCache.signature k'.1 k'.2 →
      ProgramCache.payload k.1 k.2 = ProgramCache.payload k'.1 k'.2)

include listed signed

/-- What a request is answered with. -/
theorem Sound.getOrBuild (h : Sound host asked s) {i : Nat} {g : Graph}
    (hg : s.workspace.get? i = some g) {request : BuildRequest} {options : BuildOptions}
    (hr : (request, options) ∈ asked) :
    (s.cache.getOrBuild g request options host).1.map CachedProgram.artifact =
        build g request options host ∨
      ∃ a' ∈ s.answers, a'.graph.Twin g ∧ ∃ b,
        (s.cache.getOrBuild g request options host).1.map CachedProgram.artifact = .ok b ∧
          build a'.graph request options host = .ok b := by
  rcases ProgramCache.getOrBuild_answer (c := s.cache) (g := g) with ⟨p, stored, answer⟩ | answer
  · obtain ⟨a, ha, uid, version, key, hb⟩ := h.built _ _ _ _ stored
    -- the graph has the version of then, so at most its labels have changed
    obtain ⟨-, lower | ⟨-, twin⟩⟩ := h.advanced a ha i g hg uid
    · exact absurd version lower.ne
    · have asked' := h.requested a ha
      obtain ⟨request', settings⟩ := ProgramCache.payload_injective (signed _ asked' _ hr key)
        (listed _ asked') (listed _ hr)
      rw [show a.request = request from request'] at hb
      refine .inr ⟨a, ha, twin, p.artifact, by rw [answer]; rfl, ?_⟩
      exact build_ok_of_twin (.refl a.graph) settings (.inl rfl) hb
  · exact .inl answer

/-- A build is asked for. -/
theorem Sound.get (h : Sound host asked s) {i : Nat} {g : Graph} (hg : s.workspace.get? i = some g)
    {request : BuildRequest} {options : BuildOptions} (hr : (request, options) ∈ asked) :
    Sound host asked
      { s with
        cache := (s.cache.getOrBuild g request options host).2
        answers :=
          ⟨g, request, options, (s.cache.getOrBuild g request options host).1⟩ :: s.answers } := by
  have answered := h.getOrBuild listed signed hg hr
  refine { h with
    known := ?_, advanced := ?_, requested := ?_, built := ?_, built_answer := ?_, counted := ?_ }
  · rintro a (_ | ⟨_, ha⟩)
    · exact h.numbered i g hg
    · exact h.known a ha
  · rintro a (_ | ⟨_, ha⟩) j g' hj same
    · obtain rfl := h.apart i j g g' hg hj same
      exact Option.some.inj (hg.symm.trans hj) ▸ .refl g
    · exact h.advanced a ha j g' hj same
  · rintro a (_ | ⟨_, ha⟩)
    · exact hr
    · exact h.requested a ha
  · intro uid version key p stored
    rcases ProgramCache.stores_getOrBuild stored with before | ⟨rfl, rfl, rfl, hb⟩
    · obtain ⟨a, ha, rest⟩ := h.built uid version key p before
      exact ⟨a, .tail _ ha, rest⟩
    · exact ⟨_, .head _, rfl, rfl, rfl, hb⟩
  · rintro a (_ | ⟨_, ha⟩)
    · exact answered.imp_right fun ⟨a', ha', rest⟩ => ⟨a', .tail _ ha', rest⟩
    · exact (h.built_answer a ha).imp_right fun ⟨a', ha', rest⟩ => ⟨a', .tail _ ha', rest⟩
  · have counts := s.cache.hits_add_misses_getOrBuild g request options host
    show (s.cache.getOrBuild g request options host).2.hits +
      (s.cache.getOrBuild g request options host).2.misses =
      s.answers.length + 1
    rw [counts, h.counted]

theorem Sound.step (h : Sound host asked s) {e : Event} (completed : e.Completed)
    (he : ∀ k, e.asked = some k → k ∈ asked) :
    Sound host asked (s.step host e) := by
  have onGraph : ∀ i f, (∀ g, s.workspace.get? i = some g → Sound host asked (f g)) →
      Sound host asked (s.withGraph i f) := by
    intro i f hf
    unfold withGraph
    split
    · next g hg => exact hf g hg
    · exact h
  cases e with
  | create => exact h.add rfl
  | copy i => exact onGraph i _ fun g _ => h.add rfl
  | compose i call =>
    exact onGraph i _ fun g hg => h.compose hg (Author.Completed.advances completed g)
  | get i request options => exact onGraph i _ fun g hg => h.get listed signed hg (he _ rfl)
  | forget uid =>
    exact { h with
      built := fun uid' version key p hp =>
        h.built uid' version key p (ProgramCache.stores_of_forget hp) }
  | clear =>
    refine { h with built := ?_ }
    rintro uid version key p ⟨known, hk, -⟩
    cases hk

end Requests

end Session

namespace Session

variable {host : Host} {g : Graph} {n : Nat} {c : ProgramCache} {answers : List Answer}

end Session

end ShaderGraph
