import ShaderGraph.Proofs.LabelsBuild
import ShaderGraph.Proofs.LocalScopes

/-!
# The types in declarations

Where the code of a node is a name, the type in the declaration of the name is the one that was found
for the node there, unless the name is that of a variable or of a varying (`declared_types`). A variable
is declared where it is met first, and a varying is entered where it is met first; the type that the
node has under the contexts there is kept for all contexts.
-/

namespace ShaderGraph

open Build Statement

/-- The program declares a name, which may be the code of a node, with a type. -/
inductive Program.Declares (prog : Program) : Expr → ValueType → Prop
  | local {x : String} {T : ValueType} : (x, T) ∈ collectIn typed prog.body →
      Declares prog (localName x) T
  | varying {d : LocationDecl ValueType} : d ∈ prog.varyings →
      Declares prog (.reference (.varying prog.stage d.name)) d.type

theorem Program.Declares.of_varying {prog : Program} {stage : Stage} {name : String} {T : ValueType}
    (h : prog.Declares (.reference (.varying stage name)) T) :
    ∃ d ∈ prog.varyings, d.name = name ∧ d.type = T := by
  generalize he : Expr.reference (.varying stage name) = e at h
  cases h with
  | «local» => cases he
  | varying hd =>
    cases he
    exact ⟨_, hd, rfl, rfl⟩

namespace BuildState

variable {p : Plan} {s : BuildState} {u v w : Visit} {e : Expr} {t T : ValueType} {stage : Stage}
  {prog : Program}

/-- How the type `T` in the declaration of a name comes to be, where the name stands for the node of
a visit `u` and `t` was found for the node. -/
inductive Stamps (p : Plan) (s : BuildState) (u : Visit) (e : Expr) (t T : ValueType) : Prop
  | value : T = t → Stamps p s u e t T
  /-- The variable was declared under other contexts. -/
  | var {w : Visit} {value : NodeId} {name : Option String} {readOnly : Bool} :
      p.node u.key.node = .ok (.var value name readOnly) → w ∈ s.visits → w.key = u.key →
      w.code = some e → s.typeAt? w = some T → Stamps p s u e t T
  /-- The varying was entered under some contexts. -/
  | varying {source : NodeId} {name : Option String} {interpolation : Interpolation}
      {sampling : Option Sampling} :
      p.node u.key.node = .ok (.varying source name interpolation sampling) →
      (∀ m, p.resolve source = .ok m → ∃ around, s.typeIn? ⟨m, around⟩ = some T) → Stamps p s u e t T
  /-- The name is one that no statement of the body declares for the node. -/
  | given {n : Node} : p.node u.key.node = .ok n → n.isGiven = true → Stamps p s u e t T

/-- The type of the node of a visit is that of the result when the node is a call. -/
theorem Types.eq (hs : s.Coherent p) (hf : ∃ around, s.frames.number? around = some w.frame)
    (h : s.Types p w T) (ht : s.typeAt? w = some t) : T = t := by
  rcases h with found | ⟨f, args, hn, hr⟩
  · exact Option.some.inj (found.symm.trans ht)
  · obtain ⟨around, number⟩ := hf
    have fits : s.Fits p ⟨w.key.node, around⟩ t := hs.fits ((typeIn?_of_get? number).trans ht)
    exact Option.some.inj (hr.symm.trans (fits.call hn))

/-- The names that statements declare with types are those that they bind. -/
theorem typed_names (ss : List Statement) : (collectIn typed ss).map Prod.fst = boundIn ss := by
  have names : (fun st : Statement => st.typed.map Prod.fst) = fun st => st.binds?.toList := by
    funext st
    cases st <;> rfl
  rw [map_collectIn, names, boundIn]

/-- A program declares a local with one type. -/
theorem type_unique (hp : prog.InScope) {x : String} (h : (x, T) ∈ collectIn typed prog.body)
    (h' : (x, t) ∈ collectIn typed prog.body) : T = t := by
  have nodup : ((collectIn typed prog.body).map Prod.fst).Nodup := by
    rw [typed_names]
    exact (List.nodup_append.1 hp.once).2.1
  exact congrArg Prod.snd (List.inj_on_of_nodup_map nodup h h' rfl)

/-- The entry of a varying has the type in the declaration of its name. -/
theorem varying_type (hs : s.Named p) (hp : s.Presents p stage prog) {d : LocationDecl ValueType}
    (hd : d ∈ prog.varyings) {id : NodeId} {entry : VaryingEntry}
    (he : s.varyings.get? id = some entry) (hname : entry.name = d.name) : entry.type = d.type := by
  have listed : d ∈ (s.stages.get stage).varyings.filterMap s.varyingDecl? :=
    mem_sortBy.1 (hp.varyings ▸ hd)
  obtain ⟨id', -, hdecl⟩ := List.mem_filterMap.1 listed
  obtain ⟨entry', he', rfl⟩ := Option.map_eq_some_iff.1 hdecl
  -- names tell items apart
  have mine : entry.name ∈ s.namesOf (.varying id) := by
    rw [namesOf, he, Option.elim]
    exact .head _
  have other : entry.name ∈ s.namesOf (.varying id') := by
    rw [namesOf, he', Option.elim, hname]
    exact .head _
  cases hs.distinct mine other
  cases he.symm.trans he'
  rfl

/-- What a name stands for says how the type in its declaration comes to be. -/
theorem Means.stamps (hm : s.Means p (fun t d => d ∈ s.declares t) u e) (hs : s.Coherent p)
    (hn : s.Named p) (hi : (s.stages.get stage).inner = []) (hp : s.Presents p stage prog)
    (hscope : prog.InScope) (hstage : u.key.stage = some stage)
    (hf : ∃ around, s.frames.number? around = some u.frame) (ht : s.typeAt? u = some t)
    (hd : prog.Declares e T) : s.Stamps p u e t T := by
  -- the declaration is the one that was made where the name was coined
  have coined : ∀ {w x}, s.Coins p (fun t d => d ∈ s.declares t) w x → w.key = u.key →
      prog.Declares (localName x) T → s.Types p w T := by
    rintro w x ⟨-, e', T', hstage', declared, types⟩ hkey hd
    rw [hkey, hstage] at hstage'
    cases hstage'
    have body : (x, T') ∈ collectIn typed prog.body := by
      unfold declares StageBuild.collect at declared
      rw [hi, ← hp.body] at declared
      exact declared
    cases hd with
    | «local» hd => exact type_unique hscope hd body ▸ types
  cases hm with
  | given hn hg => exact .given hn hg
  | @value w x hw hkey hcoins frame =>
    have types := coined hcoins hkey hd
    have same : s.typeAt? w = s.typeAt? u := by
      unfold typeAt?
      rw [hkey, frame]
    exact .value (types.eq hs (frame ▸ hf) (same.trans ht))
  | var hvar hw hkey hcoins =>
    rcases coined hcoins hkey hd with found | ⟨f, args, hcall, -⟩
    · exact .var hvar hw hkey hcoins.code found
    · rw [hkey] at hcall
      cases hvar.symm.trans hcall
  | @varying source name interpolation sampling entry stage' hvarying he hsource =>
    obtain ⟨d, listed, name, rfl⟩ := hd.of_varying
    refine .varying hvarying fun m hm => ?_
    rw [← varying_type hn hp listed he name.symm]
    exact hs.varyings _ _ he m (hsource ▸ hm)

end BuildState

variable {g : Graph} {request : BuildRequest} {options : BuildOptions} {host : Host} {a : Artifact}

/-- Where the code of a node is a name, the name stands for a node of the same type, and the type in
its declaration is that type, or the one that a variable had where it was declared, or a varying where
it was entered. -/
theorem declared_types (h : build g request options host = .ok a) : ∃ p s,
    Plan.make g options (request.roots.map Prod.snd) host = .ok p ∧ run p request.roots = .ok s ∧
      a.programs.map ProgramOf.stage = request.stages ∧
      ∀ prog ∈ a.programs, ∀ v ∈ s.visits, v.key.stage = some prog.stage →
        ∀ e t T, v.code = some e → s.typeAt? v = some t → prog.Declares e T →
          ∃ u ∈ s.visits, u.code = some e ∧ s.Shows p v u ∧ s.typeAt? u = some t ∧
            s.Stamps p u e t T := by
  obtain ⟨p, s, hmake, hrun, assembles, -⟩ := recorded_of_build h
  refine ⟨p, s, hmake, hrun, assembles.stages, fun prog hprog v hv hstage e t T hc ht hd => ?_⟩
  obtain ⟨coherent, labelled⟩ := run_labelled hrun
  obtain ⟨-, -, -, -, named, -⟩ := named_of_run hrun
  have name : e.isName = true := by cases hd <;> rfl
  obtain ⟨u, hu, hcode, shown, means⟩ := labelled.told v hv e hc name
  have ht' := shown.typeAt? coherent ht
  refine ⟨u, hu, hcode, shown, ht', ?_⟩
  obtain ⟨same, -, around, -, framed, -⟩ := shown
  exact means.stamps coherent named ((run_stands hrun).inner_eq_nil _) (assembles.programs prog hprog)
    (inScope_of_build h prog hprog) (same.trans hstage) ⟨around, framed.number?⟩ ht' hd

/-- A variable under two contexts that lend values of different types. -/
def lentVariable : Graph := .ofNodes
  [.const .float [1], .const .vec4 [1, 2, 3, 4], .contextValue "x" none, .var ⟨2⟩ (some "v") false,
    .context ⟨3⟩ [("x", ⟨0⟩)], .context ⟨3⟩ [("x", ⟨1⟩)], .stack [⟨4⟩] (some ⟨5⟩)]

theorem make_lentVariable : Plan.make lentVariable (.ofDialect .glsl) [⟨6⟩] =
    .ok (.ofGraph lentVariable (.ofDialect .glsl)) := by
  rfl

/-- The variable is declared with the type of the first value; under the second context, too, its name
is the code of the node. -/
theorem build_lentVariable :
    ∃ a, build lentVariable ⟨none, some ⟨6⟩, none⟩ (.ofDialect .glsl) = .ok a ∧
      ∃ s, run (.ofGraph lentVariable (.ofDialect .glsl)) [(.fragment, ⟨6⟩)] = .ok s ∧
        ∃ prog ∈ a.programs, prog.output = some (localName "v") ∧
          prog.Declares (localName "v") .float ∧
            ∃ v ∈ s.visits, v.key = ⟨.root, ⟨3⟩, some prog.stage⟩ ∧ v.code = some (localName "v") ∧
              s.typeAt? v = some .vec4 := by
  have declared : achieves (fun a => a.programs.any fun prog => prog.stage = .fragment &&
        prog.output.bind Expr.localName? = some "v" &&
          ("v", ValueType.float) ∈ collectIn typed prog.body)
      (build lentVariable ⟨none, some ⟨6⟩, none⟩ (.ofDialect .glsl)) = true := by
    decide +kernel
  have visited : leaves (fun s => s.visits.any fun v => v.key = ⟨.root, ⟨3⟩, some .fragment⟩ &&
        v.code.bind Expr.localName? = some "v" && s.typeAt? v = some .vec4)
      (run (.ofGraph lentVariable (.ofDialect .glsl)) [(.fragment, ⟨6⟩)]) = true := by
    decide +kernel
  obtain ⟨a, ha, hdeclared⟩ := of_achieves declared
  obtain ⟨s, hs, hvisited⟩ := of_leaves visited
  obtain ⟨prog, hprog, hdeclared⟩ := List.any_eq_true.1 hdeclared
  obtain ⟨v, hv, hvisited⟩ := List.any_eq_true.1 hvisited
  simp only [Bool.and_eq_true, decide_eq_true_eq] at hdeclared hvisited
  obtain ⟨⟨stage, output⟩, body⟩ := hdeclared
  obtain ⟨⟨key, code⟩, type⟩ := hvisited
  exact ⟨a, ha, s, hs, prog, hprog, Expr.eq_of_localName? output, .local body, v, hv, stage ▸ key,
    Expr.eq_of_localName? code, type⟩

/-- The type in the declaration is the one that the variable has under the first context. -/
theorem lentVariable_stamped :
    ∃ a, build lentVariable ⟨none, some ⟨6⟩, none⟩ (.ofDialect .glsl) = .ok a ∧
      ∃ p s, Plan.make lentVariable (.ofDialect .glsl) [⟨6⟩] = .ok p ∧
        run p [(.fragment, ⟨6⟩)] = .ok s ∧ ∃ u ∈ s.visits, s.typeAt? u = some .vec4 ∧
          s.Stamps p u (localName "v") .vec4 .float := by
  obtain ⟨a, ha, s, hs, prog, hprog, -, hd, v, hv, hkey, hcode, ht⟩ := build_lentVariable
  obtain ⟨p, s', hmake, hrun, -, declared⟩ := declared_types ha
  cases make_lentVariable.symm.trans hmake
  cases hrun.symm.trans hs
  obtain ⟨u, hu, -, -, ht', stamps⟩ :=
    declared prog hprog v hv (congrArg CacheKey.stage hkey) _ _ _ hcode ht hd
  exact ⟨a, ha, _, s, hmake, hrun, u, hu, ht', stamps⟩

/-- A program gives out a variable of one component where the type of the node has four. -/
theorem lentVariable_mistyped :
    ∃ a, build lentVariable ⟨none, some ⟨6⟩, none⟩ (.ofDialect .glsl) = .ok a ∧
      ∃ p s, Plan.make lentVariable (.ofDialect .glsl) [⟨6⟩] = .ok p ∧
        run p [(.fragment, ⟨6⟩)] = .ok s ∧ ∃ prog ∈ a.programs, ∃ v ∈ s.visits,
          v.key.stage = some prog.stage ∧ v.code = prog.output ∧ ∃ e t T, v.code = some e ∧
            s.typeAt? v = some t ∧ prog.Declares e T ∧ T ≠ t := by
  obtain ⟨a, ha, s, hs, prog, hprog, output, hd, v, hv, hkey, hcode, ht⟩ := build_lentVariable
  exact ⟨a, ha, _, s, make_lentVariable, hs, prog, hprog, v, hv, congrArg CacheKey.stage hkey,
    hcode.trans output.symm, _, _, _, hcode, ht, hd, by decide⟩

end ShaderGraph
