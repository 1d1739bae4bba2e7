import ShaderGraph.Proofs.ProgramNames

/-!
# Names that hide others

A local gets a name that is free when it is declared, and what is declared outside of the entry
points gets its names without regard to locals. So a local hides such a name only if that one was
entered after analysis: the item belongs to nodes that analysis did not count
(`hidden_not_counted`).

A program that declares the name of a built-in function hides the function. What a build declares is
never a reserved word (`not_reserved_of_declares`), and any other name may be declared; so the
built-in functions that some build calls and hides are those that are not reserved
(`captured_iff`).
-/

namespace ShaderGraph

/-! ## Locals that hide what a build declares outside -/

namespace Build

open BuildState

variable {p : Plan} {rs : List (Stage × NodeId)} {s : BuildState} {n : String}

/-- A name that an entry point declares is none that was taken after analysis: no reserved word, no
struct, and no name of an item that a counted node brings. -/
theorem not_taken_of_declares (h : run p rs = .ok s) (hn : s.Declares n) :
    p.takenNames.isUsed n = false ∧
      ∀ i id o t, n ∈ s.spelledAs i → p.Brings id i → s.cache.usage o id t = 0 := by
  obtain ⟨s₀, surveys, named, avoids, -, counted⟩ := named_of_run h
  have quiet : ¬s₀.Declares n := by
    rw [declares_of_bodies surveys.bodies]
    exact not_declares_start p n
  have free : s₀.globals.isUsed n = false := (avoids.fresh n (.inl hn)).resolve_left quiet
  refine ⟨?_, fun i id o t hi ⟨nd, j, hnode, hitem, hneeds⟩ => ?_⟩
  · by_contra hused
    have start : (BuildState.start p).globals.isUsed n = true := Bool.of_not_eq_false hused
    have used := surveys.toEnters.taken n start
    rw [free] at used
    cases used
  -- what a counted node brings was entered by analysis, under the names that it keeps
  · by_contra husage
    have hc := counted _ (NodeCache.counted_key.2 (Nat.one_le_iff_ne_zero.2 husage))
    have own := (surveys.entered _ hc).resolve_left NodeCache.not_counted_empty nd j hnode hitem
    have entered := named.entered own hneeds
    rw [avoids.enters.keepSpelled entered] at hi
    have used := named.taken i n hi
    rw [free] at used
    cases used

end Build

open Build

section Hidden

variable {g : Graph} {request : BuildRequest} {options : BuildOptions} {host : Host} {a : Artifact}
  {prog : Program} {n : String}

/-- What a local of a program hides belongs to nodes that analysis did not count. -/
theorem hidden_not_counted (h : build g request options host = .ok a) (hp : prog ∈ a.programs)
    (hl : n ∈ prog.localNames) (hm : n ∈ a.moduleNames) : ∃ p s i,
      Plan.make g options (request.roots.map Prod.snd) host = .ok p ∧ run p request.roots = .ok s ∧
        n ∈ s.spelledAs i ∧ ∀ id, p.Brings id i → ∀ o t, s.cache.usage o id t = 0 := by
  obtain ⟨p, s, hmake, hrun, hartifact⟩ := of_build h
  obtain ⟨programs, codes, -⟩ := BuildState.of_artifact hartifact
  obtain ⟨-, -, -, -, named, -⟩ := named_of_run hrun
  obtain ⟨t, -, presents⟩ := programs prog hp
  obtain ⟨free, uncounted⟩ := not_taken_of_declares hrun (BuildState.declares_of_localNames presents hl)
  have owned : n ∈ p.structs.keys ∨ ∃ i, n ∈ s.spelledAs i := by
    rcases List.mem_append.1 hm with hm | hm
    · obtain ⟨prog', hprog', hm⟩ := List.mem_flatMap.1 hm
      obtain ⟨t', -, presents'⟩ := programs prog' hprog'
      exact (BuildState.named_of_moduleNames named presents' hm).imp_right fun ⟨i, hi⟩ =>
        ⟨i, BuildState.namesOf_subset_spelledAs i hi⟩
    · obtain ⟨c, hc, rfl⟩ := List.mem_map.1 hm
      exact .inr (BuildState.named_of_nativeCodes named (codes ▸ hc))
  rcases owned with hstruct | ⟨i, hi⟩
  · have used : p.takenNames.isUsed n = true := by
      unfold Plan.takenNames NameTable.isUsed
      simp [hstruct]
    rw [free] at used
    cases used
  · exact ⟨p, s, i, hmake, hrun, hi, fun id hb o t => uncounted i id o t hi hb⟩

/-- A uniform that is lent to a context value whose content was counted under another context, next
to a variable of the same name. -/
def lentLate : Graph := .ofNodes
  [.contextValue "x" none, .const .float [1], .uniform "time" .float none .none [],
    .context ⟨0⟩ [("x", ⟨1⟩)], .context ⟨0⟩ [("x", ⟨2⟩)], .var ⟨3⟩ (some "time") false,
    .operator .add ⟨5⟩ ⟨4⟩]

/-- Whether a local of a program hides a name that the build declares outside. -/
def hides (n : String) : Except Failure Artifact → Bool
  | .ok a => a.programs.any (fun prog => prog.localNames.contains n) && a.moduleNames.contains n
  | .error _ => false

theorem of_hides {r : Except Failure Artifact} (h : hides n r = true) :
    ∃ a, r = .ok a ∧ ∃ prog ∈ a.programs, n ∈ prog.localNames ∧ n ∈ a.moduleNames := by
  unfold hides at h
  split at h
  · next a =>
    obtain ⟨hl, hm⟩ := Bool.and_eq_true_iff.1 h
    obtain ⟨prog, hp, hl⟩ := List.any_eq_true.1 hl
    exact ⟨a, rfl, prog, hp, List.contains_iff_mem.1 hl, List.contains_iff_mem.1 hm⟩
  · cases h

theorem hides_lentLate :
    hides "time" (build lentLate ⟨none, some ⟨6⟩, none⟩ (.ofDialect .glsl)) = true := by
  decide +kernel

/-- The variable of `lentLate` hides the uniform. -/
theorem lentLate_hidden :
    ∃ a, build lentLate ⟨none, some ⟨6⟩, none⟩ (.ofDialect .glsl) = .ok a ∧
      ∃ prog ∈ a.programs, "time" ∈ prog.localNames ∧ "time" ∈ a.moduleNames :=
  of_hides hides_lentLate

/-- The uniform of `lentLate` was not counted. -/
theorem lentLate_not_counted :
    ∃ p s, Plan.make lentLate (.ofDialect .glsl) [⟨6⟩] = .ok p ∧ run p [(.fragment, ⟨6⟩)] = .ok s ∧
      ∃ i, "time" ∈ s.spelledAs i ∧ ∀ id, p.Brings id i → ∀ o t, s.cache.usage o id t = 0 := by
  obtain ⟨a, ha, prog, hp, hl, hm⟩ := of_hides hides_lentLate
  obtain ⟨p, s, i, hmake, hrun, hi, huncounted⟩ := hidden_not_counted ha hp hl hm
  exact ⟨p, s, hmake, hrun, i, hi, huncounted⟩

end Hidden

/-! ## Declared names and built-in functions -/

/-! ### Calls -/

namespace Dialect

/-- The built-in functions of the remainder of floats. -/
def remainderCalls : Dialect → List String
  | .glsl => ["mod"]
  | .wgsl => []

/-- The built-in functions of a choice between two values. -/
def selectCalls : Dialect → List String
  | .glsl => []
  | .wgsl => ["select"]

/-- The built-in functions of a texture sample, with a level or without one. -/
def sampleCalls (d : Dialect) (hasLevel : Bool) : List String :=
  match d with
  | .glsl => [if hasLevel then "textureLod" else "texture", "sampler2D"]
  | .wgsl => [if hasLevel then "textureSampleLevel" else "textureSample"]

/-- The built-in functions that generated code may call. -/
def callable (d : Dialect) : List String :=
  MathMethod.all.map d.methodName ++ d.remainderCalls ++ d.selectCalls ++
    d.sampleCalls true ++ d.sampleCalls false

end Dialect

namespace Expr

mutual

/-- The built-in functions that an expression calls. -/
def calls (d : Dialect) : Expr → List String
  | literal .. | reference _ => []
  | construct _ args | call _ args => callsIn d args
  | operator _ left right => calls d left ++ calls d right
  | remainder left right => d.remainderCalls ++ (calls d left ++ calls d right)
  | unary _ operand => calls d operand
  | math method args => d.methodName method :: callsIn d args
  | select condition whenTrue whenFalse =>
    d.selectCalls ++ (calls d condition ++ (calls d whenTrue ++ calls d whenFalse))
  | sample _ _ uv level => d.sampleCalls level.isSome ++ (calls d uv ++ callsOf d level)
  | swizzle base _ | member base _ => calls d base
  | index base i => calls d base ++ calls d i
  | address place => calls d place

/-- The built-in functions that some expressions call. -/
def callsIn (d : Dialect) : List Expr → List String
  | [] => []
  | e :: rest => calls d e ++ callsIn d rest

/-- The built-in functions that an expression calls, if there is one. -/
def callsOf (d : Dialect) : Option Expr → List String
  | none => []
  | some e => calls d e

end

end Expr

/-- The expressions of a statement itself. -/
def Statement.exprs : Statement → List Expr
  | declare _ _ init _ _ => init.toList
  | assign place value => [place, value]
  | update place _ value => [place, value]
  | call _ args => args
  | jump _ => []
  | branch condition _ _ => [condition]
  | loop _ _ start _ stop _ _ => [start, stop]

/-- The built-in functions that a program calls. -/
def Program.calls (d : Dialect) (prog : Program) : List String :=
  Statement.collectIn (fun st => st.exprs.flatMap (Expr.calls d)) (prog.locals ++ prog.body) ++
    prog.output.toList.flatMap (Expr.calls d)

/-- The names that a program of a build declares, inside of its entry point and outside. -/
def Artifact.declaredIn (a : Artifact) (prog : Program) : List String :=
  prog.localNames ++ prog.moduleNames ++
    (a.codes.filter fun c => c.stages.contains prog.stage).map NativeCode.name

/-- A program of a build calls a built-in function whose name it declares. -/
def Artifact.Captures (a : Artifact) (n : String) : Prop :=
  ∃ prog ∈ a.programs, n ∈ a.declaredIn prog ∧ n ∈ prog.calls a.dialect

namespace Dialect

variable {d : Dialect}

theorem methodName_callable (m : MathMethod) : d.methodName m ∈ d.callable := by
  simp [callable, MathMethod.mem_all]

theorem remainderCalls_subset : d.remainderCalls ⊆ d.callable := by cases d <;> decide +kernel

theorem selectCalls_subset : d.selectCalls ⊆ d.callable := by cases d <;> decide +kernel

theorem sampleCalls_subset (hasLevel : Bool) : d.sampleCalls hasLevel ⊆ d.callable := by
  cases d <;> cases hasLevel <;> decide +kernel

end Dialect

namespace Expr

variable {d : Dialect}

mutual

/-- An expression calls functions that generated code may call. -/
theorem calls_subset : ∀ e : Expr, e.calls d ⊆ d.callable
  | literal .. | reference _ => List.nil_subset _
  | construct _ args | call _ args => callsIn_subset args
  | operator _ left right => List.append_subset.2 ⟨calls_subset left, calls_subset right⟩
  | remainder left right =>
    List.append_subset.2 ⟨Dialect.remainderCalls_subset,
      List.append_subset.2 ⟨calls_subset left, calls_subset right⟩⟩
  | unary _ operand => calls_subset operand
  | math method args =>
    List.cons_subset.2 ⟨Dialect.methodName_callable method, callsIn_subset args⟩
  | select condition whenTrue whenFalse =>
    List.append_subset.2 ⟨Dialect.selectCalls_subset, List.append_subset.2 ⟨calls_subset condition,
      List.append_subset.2 ⟨calls_subset whenTrue, calls_subset whenFalse⟩⟩⟩
  | sample _ _ uv level =>
    List.append_subset.2 ⟨Dialect.sampleCalls_subset _,
      List.append_subset.2 ⟨calls_subset uv, callsOf_subset level⟩⟩
  | swizzle base _ | member base _ => calls_subset base
  | index base i => List.append_subset.2 ⟨calls_subset base, calls_subset i⟩
  | address place => calls_subset place

theorem callsIn_subset : ∀ es : List Expr, callsIn d es ⊆ d.callable
  | [] => List.nil_subset _
  | e :: rest => List.append_subset.2 ⟨calls_subset e, callsIn_subset rest⟩

theorem callsOf_subset : ∀ e : Option Expr, callsOf d e ⊆ d.callable
  | none => List.nil_subset _
  | some e => calls_subset e

end

end Expr

/-- A program calls functions that generated code may call. -/
theorem Program.calls_subset (d : Dialect) (prog : Program) : prog.calls d ⊆ d.callable := by
  have exprs : ∀ es : List Expr, es.flatMap (Expr.calls d) ⊆ d.callable := by
    intro es n hn
    obtain ⟨e, -, hn⟩ := List.mem_flatMap.1 hn
    exact Expr.calls_subset e hn
  exact List.append_subset.2 ⟨Statement.collectIn_subset (fun st => exprs _) _, exprs _⟩

/-! ### Reserved words -/

namespace Plan

variable {words : List String} {structs structs' : OrderedMap String (List Member)}

/-- No struct has a reserved word as its name. -/
theorem addStructs_words {nodes : List Node} (h : addStructs words nodes structs = .ok structs')
    (hs : ∀ name ∈ structs.keys, name ∉ words) : ∀ name ∈ structs'.keys, name ∉ words := by
  induction nodes generalizing structs with
  | nil =>
    cases h
    exact hs
  | cons n rest ih =>
    cases n with
    | structType name members =>
      rw [addStructs] at h
      split at h
      · cases h
      · next added ha =>
        refine ih h ?_
        unfold addStruct at ha
        split at ha
        · split at ha
          · cases ha
            exact hs
          · cases ha
        · split at ha
          · cases ha
          split at ha
          · cases ha
          · next hw =>
            cases ha
            intro other hmem
            rw [OrderedMap.keys_put] at hmem
            split at hmem
            · exact hs other hmem
            rcases List.mem_append.1 hmem with hmem | hmem
            · exact hs other hmem
            · obtain rfl := List.mem_singleton.1 hmem
              intro hother
              simp [hother] at hw
    | _ => exact ih h hs

theorem make_words {g : Graph} {options : BuildOptions} {host : Host} {roots : List NodeId}
    {p : Plan} (h : make g options roots host = .ok p) :
    ∀ name ∈ p.structs.keys, name ∉ Dialect.reservedWords p.options.dialect := by
  unfold make at h
  split at h
  · cases h
  unfold collectStructs at h
  dsimp only at h
  split at h
  · cases h
  · next hs =>
    cases h
    exact addStructs_words hs fun _ hmem => nomatch hmem

end Plan

open Build

variable {g : Graph} {request : BuildRequest} {options : BuildOptions} {host : Host} {a : Artifact}
  {prog : Program} {n : String}

theorem Dialect.not_reserved_underscored (d : Dialect) (n : String) : n ++ "_" ∉ d.reservedWords := by
  have last : ∀ w ∈ d.reservedWords, w.toList.getLast? ≠ some '_' := by
    cases d <;> decide +kernel
  refine fun h => last _ h ?_
  rw [String.toList_append]
  exact List.getLast?_concat

/-- No item is called by a reserved word if none took one. -/
theorem BuildState.Named.not_reserved {p : Plan} {s : BuildState} {d : Dialect} (hs : s.Named p)
    (h : ∀ i, ∀ n ∈ s.namesOf i, n ∉ d.reservedWords) {i : Item} (hn : n ∈ s.spelledAs i) :
    n ∉ d.reservedWords := by
  cases i with
  | function id =>
    rcases BuildState.mem_spelledAs_function.1 hn with hn | hn
    · exact h _ n hn
    · obtain ⟨f, hf, rfl⟩ := Option.map_eq_some_iff.1 hn
      have took : f.claimed ∈ s.namesOf (.function id) := by
        rw [BuildState.namesOf, hf, Option.elim]
        exact .head _
      rcases hs.renamed hf with same | more
      · exact same ▸ h _ _ took
      · exact more ▸ d.not_reserved_underscored f.claimed
  | _ =>
    simp only [BuildState.spelledAs] at hn
    exact h _ n hn

/-- No program declares a reserved word. -/
theorem not_reserved_of_declares (h : build g request options host = .ok a) (hp : prog ∈ a.programs)
    (hn : n ∈ a.declaredIn prog) : n ∉ Dialect.reservedWords a.dialect := by
  obtain ⟨p, s, hmake, hrun, hartifact⟩ := of_build h
  obtain ⟨programs, codes, dialect⟩ := BuildState.of_artifact hartifact
  obtain ⟨s₀, surveys, -, avoids, named, -⟩ := named_of_run hrun
  obtain ⟨t, -, presents⟩ := programs prog hp
  rw [dialect]
  have taken : ∀ n ∈ Dialect.reservedWords p.options.dialect, p.takenNames.isUsed n = true := by
    intro n hw
    simp [Plan.takenNames, NameTable.isUsed, hw]
  -- the names that items took were free when the build began
  have item : ∀ i n, n ∈ s.namesOf i → n ∉ Dialect.reservedWords p.options.dialect := by
    intro i n hi hw
    have entered := (surveys.toEnters.trans avoids.enters).items i
    rw [BuildState.namesOf_start] at entered
    rcases entered with none | ⟨-, free⟩
    · rw [none] at hi
      cases hi
    · have unused : p.takenNames.isUsed n = false := free n hi
      rw [taken n hw] at unused
      cases unused
  rcases List.mem_append.1 hn with hn | hn
  · rcases List.mem_append.1 hn with hn | hn
    · intro hw
      have free := (not_taken_of_declares hrun (BuildState.declares_of_localNames presents hn)).1
      rw [taken n hw] at free
      cases free
    · rcases BuildState.named_of_moduleNames named presents hn with hstruct | ⟨i, hi⟩
      · exact Plan.make_words hmake n hstruct
      · exact item i n hi
  · obtain ⟨c, hc, rfl⟩ := List.mem_map.1 hn
    obtain ⟨i, hi⟩ := BuildState.named_of_nativeCodes named (codes ▸ (List.mem_filter.1 hc).1)
    exact named.not_reserved item hi

/-! ### Names that are free to declare -/

/-- The methods and the samples, each with the name of the function that it calls. -/
def callers (d : Dialect) : List (String × Node) :=
  MathMethod.all.map (fun m => (d.methodName m, .math m (List.replicate m.arity ⟨0⟩))) ++
    [((d.sampleCalls true).headD "", .texture "t" ⟨1⟩ (some ⟨2⟩)),
      ((d.sampleCalls false).headD "", .texture "t" ⟨1⟩ none)]

/-- A call whose result is kept in a variable of the given name. -/
def shadowing (name : String) (call : Node) : Graph := .ofNodes
  [.const .vec3 [1], .const .vec2 [1], .const .float [1], call, .var ⟨3⟩ (some name) false,
    .stack [⟨4⟩] (some ⟨2⟩)]

/-- Whether a build captures a function. -/
def captures (d : Dialect) (n : String) : Except Failure Artifact → Bool
  | .ok a => a.dialect = d && a.programs.any fun prog =>
      (a.declaredIn prog).contains n && (prog.calls d).contains n
  | .error _ => false

theorem of_captures {d : Dialect} {r : Except Failure Artifact} (h : captures d n r = true) :
    ∃ a, r = .ok a ∧ a.dialect = d ∧ a.Captures n := by
  unfold captures at h
  split at h
  · next a =>
    obtain ⟨hd, h⟩ := Bool.and_eq_true_iff.1 h
    obtain rfl := of_decide_eq_true hd
    obtain ⟨prog, hp, h⟩ := List.any_eq_true.1 h
    obtain ⟨hdecl, hcall⟩ := Bool.and_eq_true_iff.1 h
    exact ⟨a, rfl, rfl, prog, hp, List.contains_iff_mem.1 hdecl, List.contains_iff_mem.1 hcall⟩
  · cases h

/-- Whether the function of a caller is reserved or captured by a variable of its name. -/
def isExposed (d : Dialect) (c : String × Node) : Bool :=
  (Dialect.reservedWords d).contains c.1 ||
    captures d c.1 (build (shadowing c.1 c.2) ⟨none, some ⟨5⟩, none⟩ (.ofDialect d))

theorem math_exposed (d : Dialect) (m : MathMethod) :
    isExposed d (d.methodName m, .math m (List.replicate m.arity ⟨0⟩)) = true := by
  cases d <;> cases m <;> decide +kernel

theorem callers_exposed (d : Dialect) : (callers d).all (isExposed d) = true := by
  unfold callers
  rw [List.all_append, List.all_map, Bool.and_eq_true, List.all_eq_true]
  exact ⟨fun m _ => math_exposed d m, by cases d <;> decide +kernel⟩

/-- A function that may be called is reserved or has a caller. -/
theorem mem_callers {d : Dialect} (hn : n ∈ d.callable) (hr : n ∉ d.reservedWords) :
    ∃ call, (n, call) ∈ callers d := by
  have other : ∀ m ∈ d.remainderCalls ++ d.selectCalls ++ d.sampleCalls true ++ d.sampleCalls false,
      m ∈ d.reservedWords ∨ m ∈ [(d.sampleCalls true).headD "", (d.sampleCalls false).headD ""] := by
    cases d <;> decide +kernel
  unfold Dialect.callable at hn
  rw [List.append_assoc, List.append_assoc, List.append_assoc, List.mem_append, List.mem_map,
    ← List.append_assoc, ← List.append_assoc] at hn
  rcases hn with ⟨m, -, rfl⟩ | hn
  · exact ⟨_, List.mem_append_left _ (List.mem_map_of_mem (MathMethod.mem_all m))⟩
  · rcases List.mem_cons.1 ((other n hn).resolve_left hr) with rfl | hn
    · exact ⟨_, List.mem_append_right _ (.head _)⟩
    · obtain rfl := List.mem_singleton.1 hn
      exact ⟨_, List.mem_append_right _ (.tail _ (.head _))⟩

/-- Some build in a dialect declares the name of a built-in function that the same program calls
exactly when that function is not reserved. -/
theorem captured_iff (d : Dialect) (n : String) :
    (∃ g request options host a, build g request options host = .ok a ∧ a.dialect = d ∧
        a.Captures n) ↔
      n ∈ d.callable ∧ n ∉ d.reservedWords := by
  constructor
  · rintro ⟨g, request, options, host, a, h, rfl, prog, hp, hdecl, hcall⟩
    exact ⟨prog.calls_subset _ hcall, not_reserved_of_declares h hp hdecl⟩
  · rintro ⟨hn, hr⟩
    obtain ⟨call, hmem⟩ := mem_callers hn hr
    have exposed := List.all_eq_true.1 (callers_exposed d) _ hmem
    unfold isExposed at exposed
    rw [Bool.or_eq_true, List.contains_iff_mem] at exposed
    obtain ⟨a, ha, hd, hc⟩ := of_captures (exposed.resolve_left hr)
    exact ⟨_, _, _, _, a, ha, hd, hc⟩

example : "sin" ∈ Dialect.callable .glsl ∧ "sin" ∉ Dialect.reservedWords .glsl := by
  decide +kernel

/-- A sine that is kept in a variable of its own name, and the sine of that. -/
def sineOfSine : Graph := .ofNodes
  [.const .float [1], .math .sin [⟨0⟩], .var ⟨1⟩ (some "sin") false, .math .sin [⟨2⟩]]

/-- The variable of `sineOfSine` hides the function that the program calls. -/
theorem sineOfSine_captures :
    ∃ a, build sineOfSine ⟨none, some ⟨3⟩, none⟩ (.ofDialect .glsl) = .ok a ∧
      a.dialect = .glsl ∧ a.Captures "sin" :=
  of_captures (by decide +kernel)

end ShaderGraph
