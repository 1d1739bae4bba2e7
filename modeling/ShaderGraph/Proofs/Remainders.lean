import Mathlib.Algebra.Order.Round
import Mathlib.Data.Rat.Floor
import ShaderGraph.Proofs.ReadingBuild

/-!
# Numbers of the two languages

What graphs of arithmetic on floats compute, with rational numbers for floats. `Graph.number?` is the
number that a node stands for, up to what a remainder is, and `Code.Denotes` says that every component
of the output of a program is a number in the language of the program.

The remainder of floats is the one operation that the languages do not share: the quotient is rounded
down in GLSL and toward zero in WGSL. A program denotes the number of its root with the remainder of
its own language (`output_denotes`). So two programs agree where the two remainders do
(`same_number`), and only there (`minus_one_differs`).
-/

namespace ShaderGraph

open Build Plan

/-! ### Remainders -/

/-- A number without what follows its point. -/
def truncate (q : ℚ) : ℤ := if 0 ≤ q then ⌊q⌋ else ⌈q⌉

/-- The whole number that a language takes for a quotient. -/
def Dialect.whole : Dialect → ℚ → ℤ
  | .glsl, q => ⌊q⌋
  | .wgsl, q => truncate q

/-- What a language takes for the remainder of floats: `mod(x, y)` in GLSL, `x % y` in WGSL. -/
def Dialect.remainder (d : Dialect) (x y : ℚ) : ℚ := x - y * d.whole (x / y)

/-- What is taken for the remainder of two numbers, if it is one. -/
abbrev Remainder := ℚ → ℚ → Option ℚ

/-- The remainder of a language. -/
def Dialect.remainder? (d : Dialect) : Remainder := fun x y => some (d.remainder x y)

/-- The remainder of both languages, where they have the same. -/
def commonRemainder? : Remainder := fun x y =>
  if Dialect.glsl.remainder x y = Dialect.wgsl.remainder x y then some (Dialect.glsl.remainder x y)
  else none

/-- The languages have the same remainder of two numbers if their quotient is not negative or is a
whole number. -/
theorem commonRemainder?_isSome {x y : ℚ} (hy : y ≠ 0) :
    (commonRemainder? x y).isSome ↔ 0 ≤ x / y ∨ ∃ n : ℤ, x / y = n := by
  have same : (commonRemainder? x y).isSome ↔ ⌊x / y⌋ = truncate (x / y) := by
    rw [commonRemainder?]
    simp only [Option.isSome_ite, Dialect.remainder, Dialect.whole, sub_right_inj]
    exact ⟨fun h => Int.cast_injective (mul_left_cancel₀ hy h), fun h => by rw [h]⟩
  rw [same, truncate]
  split
  · next h => simp [h]
  · next h =>
    refine ⟨fun hq => .inr ⟨⌊x / y⌋, ?_⟩, fun hq => ?_⟩
    · exact le_antisymm (hq ▸ Int.le_ceil _) (Int.floor_le _)
    · obtain ⟨n, hn⟩ := hq.resolve_left h
      rw [hn, Int.floor_intCast, Int.ceil_intCast]

/-- A remainder is one of a language, where there is one. -/
def Dialect.Takes (d : Dialect) (rem : Remainder) : Prop :=
  ∀ {x y z}, rem x y = some z → z = d.remainder x y

theorem Dialect.takes_remainder? (d : Dialect) : d.Takes d.remainder? :=
  fun h => (Option.some.inj h).symm

theorem Dialect.takes_common (d : Dialect) : d.Takes commonRemainder? := by
  intro x y z h
  unfold commonRemainder? at h
  split at h
  · next same =>
    obtain rfl := Option.some.inj h
    cases d
    · exact rfl
    · exact same
  · cases h

/-! ### Numbers -/

/-- What is given to a computation with numbers. -/
structure Numbers where
  /-- The number that a constant is. -/
  constant : Float → ℚ
  uniform : UniformKey → ℚ

/-- The result of an operator; there is none of a division by zero. -/
def BinaryOp.number? (rem : Remainder) : BinaryOp → ℚ → ℚ → Option ℚ
  | .add, x, y => some (x + y)
  | .sub, x, y => some (x - y)
  | .mul, x, y => some (x * y)
  | .div, x, y => if y = 0 then none else some (x / y)
  | .rem, x, y => if y = 0 then none else rem x y
  | _, _, _ => none

/-- The number that a node stands for, if `number?` gives those of other nodes, unless a division by
zero occurs or there is no remainder. -/
def Graph.numberStep (g : Graph) (rem : Remainder) (numbers : Numbers)
    (number? : NodeId → Option ℚ) (id : NodeId) : Option ℚ := do
  match ← g.get? id with
  | .const _ values => return numbers.constant (values.headD 0)
  | .uniform name _ group update _ => return numbers.uniform ⟨name, group.getD update.defaultGroup⟩
  | .unary .neg operand => return -(← number? operand)
  | .operator op left right => op.number? rem (← number? left) (← number? right)
  | _ => none

theorem Graph.finitary_numberStep {g : Graph} {rem : Remainder} {numbers : Numbers} (id : NodeId) :
    Finitary fun number? => g.numberStep rem numbers number? id := by
  refine .bind (.const _) fun n => ?_
  cases n with
  | unary op _ =>
    cases op with
    | neg => exact .bind (.apply _) fun _ => .const _
    | _ => exact .const _
  | operator => exact .bind (.apply _) fun _ => .bind (.apply _) fun _ => .const _
  | _ => exact .const _

/-- The number that a node stands for, unless a division by zero occurs or there is no remainder. -/
noncomputable def Graph.number? (g : Graph) (rem : Remainder) (numbers : Numbers) :
    NodeId → Option ℚ :=
  leastFixed (g.numberStep rem numbers)

theorem Graph.number?_eq {g : Graph} {rem : Remainder} {numbers : Numbers} {id : NodeId} :
    g.number? rem numbers id = g.numberStep rem numbers (g.number? rem numbers) id :=
  leastFixed_eq finitary_numberStep id

/-- The number that an expression without locals denotes, if `uniform?` says what is referred to. -/
def Expr.number? (d : Dialect) (numbers : Numbers) (uniform? : Reference → Option UniformKey) :
    Expr → Option ℚ
  | .literal _ value => some (numbers.constant value)
  | .reference r => (uniform? r).map numbers.uniform
  | .unary .neg e => do return -(← e.number? d numbers uniform?)
  | .operator op l r => do
    op.number? (fun _ _ => none) (← l.number? d numbers uniform?) (← r.number? d numbers uniform?)
  | .remainder l r => do
    BinaryOp.rem.number? d.remainder? (← l.number? d numbers uniform?)
      (← r.number? d numbers uniform?)
  | _ => none

/-- The uniform that a reference is to. -/
def BuildState.uniform? (s : BuildState) : Reference → Option UniformKey
  | .uniform inst member => s.uniforms.keys.find? fun key =>
    (s.namesOf (.group key.group)).getLast? = some inst && s.namesOf (.member key) = [member]
  | _ => none

/-- Every component of an output of a stage is the number `q`: with each local replaced by its value,
the output is a vector that is filled with this number. -/
def Code.Denotes (c : Code) (d : Dialect) (numbers : Numbers)
    (uniform? : Reference → Option UniformKey) (t : Stage) (e : Expr) (q : ℚ) : Prop :=
  ∃ u, c.Reads t e (.construct .vec4 [u]) ∧ u.number? d numbers uniform? = some q

/-! ### Graphs of arithmetic -/

/-- Whether a node is a constant, a uniform, a negation or arithmetic, all on floats. -/
def NodeOf.isArithmetic {ρ μ : Type} : NodeOf ρ μ → Bool
  | const type _ | uniform _ type .. => type = .float
  | unary op _ => op == .neg
  | operator op .. => op.isArithmetic
  | _ => false

/-- The nodes of a graph are arithmetic on floats. -/
def Graph.IsArithmetic (g : Graph) : Prop := ∀ id n, g.get? id = some n → n.isArithmetic = true

variable {g : Graph} {p : Plan} {names : Naming} {t : Stage} {id : NodeId} {n : Node} {e u : Expr}
  {d : Dialect} {rem : Remainder} {numbers : Numbers} {uniform? : Reference → Option UniformKey}

namespace Plan

/-- Where nothing is to be replaced, no node is found to be. -/
theorem pendingFrom_eq_nil (hp : ∀ id n, p.node id = .ok n → n.isExpandable = false) {fuel : Nat}
    {ids visited ids' : List NodeId} (h : p.pendingFrom fuel ids visited [] = .ok ids') :
    ids' = [] := by
  induction fuel generalizing ids visited with
  | zero => exact (Except.ok.inj h).symm
  | succ fuel ih =>
    cases ids with
    | nil => exact (Except.ok.inj h).symm
    | cons id rest =>
      rw [pendingFrom] at h
      split at h
      · cases h
      · next m _ =>
        split at h
        · exact ih h
        · split at h
          · cases h
          · next n hn =>
            rw [if_neg (by simp [hp m n hn])] at h
            exact ih h

/-- Where nothing is to be replaced, the plan has the nodes of the graph in their places. -/
theorem graph_of_make {options : BuildOptions} {host : Host} {roots : List NodeId}
    (hg : ∀ id n, g.get? id = some n → n.isExpandable = false)
    (h : make g options roots host = .ok p) :
    p.graph = g ∧ p.expansions = .empty ∧ p.options = options := by
  have plain : ∀ id n, (ofGraph g options host).node id = .ok n → n.isExpandable = false := by
    intro id n hn
    unfold node at hn
    split at hn
    · next n' hn' =>
      cases hn
      exact hg id n hn'
    · cases hn
  have expanded : ∀ {p'}, (ofGraph g options host).expand roots = .ok p' →
      p' = ofGraph g options host := by
    intro p' h
    rw [expand, expandIn] at h
    split at h
    · cases h
    · exact (Except.ok.inj h).symm
    · next ids hne hids => exact absurd (pendingFrom_eq_nil plain hids) hne
  unfold make at h
  split at h
  · cases h
  · next p' hp' =>
    cases expanded hp'
    unfold collectStructs at h
    dsimp only at h
    split at h <;> cases h
    exact ⟨rfl, rfl, rfl⟩

/-- The nodes of a plan are those of a graph of arithmetic, in their places. -/
structure Computes (p : Plan) (g : Graph) : Prop where
  arithmetic : g.IsArithmetic
  nodes : ∀ {id n}, p.node id = .ok n → g.get? id = some n
  built : ∀ id, p.built? id = (g.get? id).map fun n => (id, n)

theorem computes_of_make {options : BuildOptions} {host : Host} {roots : List NodeId}
    (hg : g.IsArithmetic) (h : make g options roots host = .ok p) : p.Computes g := by
  have plain : ∀ id n, g.get? id = some n → n.isExpandable = false := by
    intro id n hn
    have := hg id n hn
    cases n <;> first | rfl | cases this
  obtain ⟨graph, expansions, -⟩ := graph_of_make plain h
  refine ⟨hg, fun {id n} hn => ?_, fun id => ?_⟩
  · rw [Plan.node, graph] at hn
    split at hn
    · next hn' => exact Except.ok.inj hn ▸ hn'
    · cases hn
  have found : p.resolve id = .ok id := resolve_of_get?_eq_none (by rw [expansions]; rfl)
  cases hn : g.get? id with
  | some n => exact built?_eq found (by rw [Plan.node, graph, hn])
  | none =>
    rw [built?, found]
    show (p.node id).toOption.bind _ = none
    rw [Plan.node, graph, hn]
    rfl

end Plan

theorem BinaryOp.resultType_float {op : BinaryOp} (h : op.isArithmetic = true) :
    op.resultType .float .float = .ok .float := by
  cases op <;> first | rfl | cases h

theorem BinaryOp.operandTypes_float {op : BinaryOp} (h : op.isArithmetic = true) :
    op.operandTypes .float .float .float = (.float, .float) := by
  cases op <;> first | rfl | cases h

/-- A remainder is that of a language. -/
theorem BinaryOp.number?_rem (hd : d.Takes rem) {x y q : ℚ}
    (hq : BinaryOp.rem.number? rem x y = some q) :
    BinaryOp.rem.number? d.remainder? x y = some q := by
  simp only [BinaryOp.number?] at hq ⊢
  split at hq
  · cases hq
  · next hy => rw [if_neg hy, hd hq, Dialect.remainder?]

/-- Apart from remainders the languages have the same operators. -/
theorem BinaryOp.number?_of_ne {op : BinaryOp} (h : op ≠ .rem) {rem' : Remainder} {x y : ℚ} :
    op.number? rem x y = op.number? rem' x y := by
  cases op <;> first | rfl | exact absurd rfl h

theorem constant_float {values : List Float} :
    constant .float values = .literal .float (values.headD 0) := by
  match values with
  | [] | [_] | _ :: _ :: _ => rfl

namespace Plan.Computes

/-- Arithmetic on floats has floats for values. -/
theorem type (h : p.Computes g) {around : List NodeId} {type : ValueType}
    (ht : p.typeIn around id = some type) : type = .float := by
  refine leastFixed_induct (motive := fun _ type => type = .float) finitary_typeStep
    (fun _ ih σ type ht => ?_) ht
  obtain ⟨⟨m, n⟩, hb, ht⟩ := Option.bind_eq_some_iff.1 ht
  rw [h.built] at hb
  obtain ⟨n', hn, hb⟩ := Option.map_eq_some_iff.1 hb
  cases hb
  have arithmetic := h.arithmetic _ n hn
  cases n with
  | const ty values =>
    obtain rfl : ty = .float := of_decide_eq_true arithmetic
    exact constantType_eq (ok_of_toOption ht)
  | uniform name ty group update value =>
    obtain rfl : ty = .float := of_decide_eq_true arithmetic
    exact (Option.some.inj ht).symm
  | unary op operand =>
    obtain ⟨type', ht', ht⟩ := Option.bind_eq_some_iff.1 ht
    exact UnaryOp.resultType_eq (ok_of_toOption ht) ▸ ih _ _ ht'
  | operator op left right =>
    obtain ⟨l, hl, ht⟩ := Option.bind_eq_some_iff.1 ht
    obtain ⟨r, hr, ht⟩ := Option.bind_eq_some_iff.1 ht
    cases ih _ _ hl
    cases ih _ _ hr
    have result := (BinaryOp.resultType_float arithmetic).symm.trans (ok_of_toOption ht)
    exact (Except.ok.inj result).symm
  | _ => cases arithmetic

/-- What is brought to a float stays as it is. -/
theorem brought (h : p.Computes g) {around : List NodeId}
    (he : p.brought around id .float e = some u) : e = u := by
  obtain ⟨type, ht, he⟩ := Option.bind_eq_some_iff.1 he
  cases h.type ht
  exact Except.ok.inj ((Expr.coerce_self e _).symm.trans (ok_of_toOption he))

/-- The number of a node is that of the expression that it stands for, in a language that has the
remainder. -/
theorem number? (h : p.Computes g) (hd : d.Takes rem) {around : List NodeId}
    (hu : ∀ name type group update value r,
      names.input? t (.uniform name type group update value) = some r →
        uniform? r = some ⟨name, group.getD update.defaultGroup⟩) {q : ℚ}
    (hq : g.number? rem numbers id = some q) (hid : p.unfolded names t around id = some u) :
    u.number? d numbers uniform? = some q := by
  refine leastFixed_induct (motive := fun id q =>
      ∀ u, p.unfolded names t around id = some u → u.number? d numbers uniform? = some q)
    Graph.finitary_numberStep (fun _ ih id q hq u hid => ?_) hq u hid
  obtain ⟨n, hn, hq⟩ := Option.bind_eq_some_iff.1 hq
  rw [unfolded_eq, unfoldedStep, h.built, hn, Option.map_some, Option.bind_eq_bind, Option.bind_some] at hid
  have arithmetic := h.arithmetic id n hn
  cases n with
  | const ty values =>
    obtain rfl : ty = .float := of_decide_eq_true arithmetic
    obtain rfl := Option.some.inj hid
    rw [constant_float, Expr.number?]
    exact hq
  | uniform name ty group update value =>
    obtain ⟨r, hr, hid⟩ := Option.bind_eq_some_iff.1 hid
    cases hid
    rw [Expr.number?, hu _ _ _ _ _ r hr]
    exact hq
  | unary op operand =>
    obtain rfl : op = .neg := eq_of_beq arithmetic
    obtain ⟨x, hx, hq⟩ := Option.bind_eq_some_iff.1 hq
    obtain ⟨v, hv, hid⟩ := Option.bind_eq_some_iff.1 hid
    cases hid
    rw [Expr.number?, ih _ _ hx v hv]
    exact hq
  | operator op left right =>
    obtain ⟨x, hx, hq⟩ := Option.bind_eq_some_iff.1 hq
    obtain ⟨y, hy, hq⟩ := Option.bind_eq_some_iff.1 hq
    obtain ⟨result, hresult, hid⟩ := Option.bind_eq_some_iff.1 hid
    obtain ⟨lt, hlt, hid⟩ := Option.bind_eq_some_iff.1 hid
    obtain ⟨rt, hrt, hid⟩ := Option.bind_eq_some_iff.1 hid
    cases h.type hresult
    cases h.type hlt
    cases h.type hrt
    dsimp only at hid
    rw [BinaryOp.operandTypes_float arithmetic] at hid
    obtain ⟨l, hl, hid⟩ := Option.bind_eq_some_iff.1 hid
    obtain ⟨l', hl', hid⟩ := Option.bind_eq_some_iff.1 hid
    obtain ⟨r, hr, hid⟩ := Option.bind_eq_some_iff.1 hid
    obtain ⟨r', hr', hid⟩ := Option.bind_eq_some_iff.1 hid
    cases h.brought hl'
    cases h.brought hr'
    have left := ih _ _ hx l hl
    have right := ih _ _ hy r hr
    obtain rfl := Option.some.inj hid
    split
    · next hrem =>
      obtain rfl : op = .rem := by simpa using (Bool.and_eq_true_iff.1 hrem).1
      rw [Expr.number?, left, right]
      exact BinaryOp.number?_rem hd hq
    · next hrem =>
      have other : op ≠ .rem := by
        rintro rfl
        exact hrem rfl
      rw [Expr.number?, left, right]
      exact (BinaryOp.number?_of_ne other).trans hq
  | _ => cases arithmetic

end Plan.Computes

/-! ### Builds -/

/-- The name of a uniform refers to it. -/
theorem BuildState.uniform?_naming {s : BuildState} (hs : s.Named p) {name : String}
    {type : ValueType} {group : Option String} {update : Cadence} {value : List Float32}
    {r : Reference}
    (h : s.naming.input? t (.uniform name type group update value) = some r) :
    s.uniform? r = some ⟨name, group.getD update.defaultGroup⟩ := by
  let key : UniformKey := ⟨name, group.getD update.defaultGroup⟩
  simp only [naming] at h
  split at h
  · next block inst member hgroup hmember =>
    cases h
    have entered : key ∈ s.uniforms.keys := by
      rw [← OrderedMap.get?_isSome_iff]
      cases hu : s.uniforms.get? key with
      | some _ => rfl
      | none => simp [BuildState.namesOf, key, hu] at hmember
    have asked : (s.uniforms.keys.find? fun k =>
      (s.namesOf (.group k.group)).getLast? = some inst &&
        s.namesOf (.member k) = [member]).isSome = true := by
      refine List.find?_isSome.2 ⟨key, entered, ?_⟩
      rw [hgroup, hmember]
      simp
    obtain ⟨found, hfound⟩ := Option.isSome_iff_exists.1 asked
    -- the name of a member is that of one uniform
    have same : found = key := by
      have named : s.namesOf (.member found) = [member] := by
        have := List.find?_some hfound
        simpa using (Bool.and_eq_true_iff.1 this).2
      exact Item.member.inj (hs.distinct (named ▸ List.mem_singleton_self member)
        (hmember ▸ List.mem_singleton_self member))
    exact hfound.trans (congrArg some same)
  · cases h

variable {request : BuildRequest} {options : BuildOptions} {host host' : Host} {a a' : Artifact}
  {prog prog' : Program} {e' : Expr}

/-- The output of a program of a graph of arithmetic denotes the number of its root, and nothing
else, with the remainder of the language. -/
theorem output_denotes (numbers : Numbers)
    (h : build g request options host = .ok a) (hg : g.IsArithmetic)
    (hprog : prog ∈ a.programs) (he : prog.output = some e) :
    ∃ p s root, Plan.make g options (request.roots.map Prod.snd) host = .ok p ∧
      run p request.roots = .ok s ∧ (prog.stage, root) ∈ request.roots ∧
        ∀ {rem}, options.dialect.Takes rem → ∀ {q}, g.number? rem numbers root = some q →
          ∀ q', a.code.Denotes options.dialect numbers s.uniform? prog.stage e q' ↔ q' = q := by
  obtain ⟨p, -, hmake, -, -⟩ := of_build h
  have computes := computes_of_make hg hmake
  have arithmetic : ∀ id n, p.node id = .ok n → n.isArithmetic = true :=
    fun id n hn => hg id n (computes.nodes hn)
  have values : p.OfValues := by
    intro id n hn
    have := arithmetic id n hn
    cases n <;> first | rfl | cases this
  have steady : p.SteadyVaryings (request.roots.map Prod.snd) := by
    intro id source name interpolation sampling around around' hn
    cases arithmetic _ _ hn
  obtain ⟨s, carries, hrun, named, definite, outputs⟩ := reading_of_build h hmake values steady
  obtain ⟨root, u, hroot, hu, reads⟩ := outputs prog hprog e he
  refine ⟨p, s, root, hmake, hrun, hroot, fun {rem} hd q hq q' => ?_⟩
  obtain ⟨v, hv, brought⟩ := Option.bind_eq_some_iff.1 hu
  -- the output is a vector that is filled with the number of the root
  obtain rfl : u = .construct .vec4 [v] := by
    obtain ⟨type, ht, brought⟩ := Option.bind_eq_some_iff.1 brought
    cases computes.type ht
    exact (Except.ok.inj (ok_of_toOption brought)).symm
  have number : v.number? options.dialect numbers s.uniform? = some q :=
    computes.number? hd (fun _ _ _ _ _ _ => BuildState.uniform?_naming named) hq hv
  constructor
  · rintro ⟨v', reads', number'⟩
    cases Code.Reads.unique definite reads' reads
    exact Option.some.inj (number'.symm.trans number)
  · rintro rfl
    exact ⟨v, reads.forget, number⟩

/-- For a graph of arithmetic the outputs of the two languages denote the same number, unless a
division by zero occurs or the languages have different remainders of the operands of a `%`. -/
theorem same_number (numbers : Numbers)
    (h : build g request { options with dialect := .glsl } host = .ok a)
    (h' : build g request { options with dialect := .wgsl } host' = .ok a') (hg : g.IsArithmetic)
    (hprog : prog ∈ a.programs) (he : prog.output = some e) (hprog' : prog' ∈ a'.programs)
    (he' : prog'.output = some e') (hstage : prog'.stage = prog.stage) :
    ∃ p s p' s' root,
      Plan.make g { options with dialect := .glsl } (request.roots.map Prod.snd) host = .ok p ∧
      run p request.roots = .ok s ∧
      Plan.make g { options with dialect := .wgsl } (request.roots.map Prod.snd) host' = .ok p' ∧
      run p' request.roots = .ok s' ∧ (prog.stage, root) ∈ request.roots ∧
      ∀ q, g.number? commonRemainder? numbers root = some q →
        (∀ q', a.code.Denotes .glsl numbers s.uniform? prog.stage e q' ↔ q' = q) ∧
          ∀ q', a'.code.Denotes .wgsl numbers s'.uniform? prog.stage e' q' ↔ q' = q := by
  obtain ⟨p, s, root, hmake, hrun, hroot, denotes⟩ := output_denotes numbers h hg hprog he
  obtain ⟨p', s', root', hmake', hrun', hroot', denotes'⟩ :=
    output_denotes numbers h' hg hprog' he'
  rw [hstage] at hroot' denotes'
  -- a stage has one root
  obtain rfl : root' = root := by
    have unique := List.inj_on_of_nodup_map request.nodup_stages hroot' hroot rfl
    exact (Prod.mk.inj unique).2
  exact ⟨p, s, p', s', root', hmake, hrun, hmake', hrun', hroot, fun q hq =>
    ⟨denotes (Dialect.takes_common _) hq, denotes' (Dialect.takes_common _) hq⟩⟩

/-! ### A negative quotient -/

/-- The remainder of two uniforms. -/
def remainderOfUniforms : Graph := .ofNodes
  [.uniform "a" .float none .none [], .uniform "b" .float none .none [], .operator .rem ⟨0⟩ ⟨1⟩]

theorem isArithmetic_remainderOfUniforms : remainderOfUniforms.IsArithmetic := by
  have all :
      (remainderOfUniforms.entries.toList.map Entry.node).all NodeOf.isArithmetic = true := by
    rfl
  intro id n hn
  obtain ⟨entry, hentry, rfl⟩ := Option.map_eq_some_iff.1 hn
  exact List.all_eq_true.1 all _
    (List.mem_map_of_mem (Array.mem_toList_iff.2 (Array.mem_of_getElem? hentry)))

/-- Two numbers for the uniforms. -/
def twoNumbers (x y : ℚ) : Numbers := ⟨fun _ => 0, fun key => if key.name = "a" then x else y⟩

theorem number?_remainderOfUniforms {x y : ℚ} (hy : y ≠ 0) :
    remainderOfUniforms.number? rem (twoNumbers x y) ⟨2⟩ = rem x y := by
  have left : remainderOfUniforms.number? rem (twoNumbers x y) ⟨0⟩ = some x := by
    rw [Graph.number?_eq]
    rfl
  have right : remainderOfUniforms.number? rem (twoNumbers x y) ⟨1⟩ = some y := by
    rw [Graph.number?_eq]
    rfl
  rw [Graph.number?_eq]
  show (remainderOfUniforms.number? rem (twoNumbers x y) ⟨0⟩).bind (fun l =>
    (remainderOfUniforms.number? rem (twoNumbers x y) ⟨1⟩).bind fun r =>
    BinaryOp.rem.number? rem l r) = _
  rw [left, right, Option.bind_some, Option.bind_some, BinaryOp.number?, if_neg hy]

/-- The request for the remainder of the uniforms in the fragment stage. -/
def remainderRequest : BuildRequest := ⟨none, some ⟨2⟩, none⟩

theorem built_remainderOfUniforms (d : Dialect) : ∃ a,
    build remainderOfUniforms remainderRequest { BuildOptions.standard with dialect := d } = .ok a ∧
      ∃ prog ∈ a.programs, prog.stage = .fragment ∧ ∃ e, prog.output = some e := by
  refine of_outputs ?_
  cases d <;> decide +kernel

/-- The remainder of 5 and 3 is 2 in both languages. -/
theorem five_same :
    ∃ a a' prog prog' e e' p s p' s',
      build remainderOfUniforms remainderRequest
        { BuildOptions.standard with dialect := .glsl } = .ok a ∧
      build remainderOfUniforms remainderRequest
        { BuildOptions.standard with dialect := .wgsl } = .ok a' ∧
      remainderOfUniforms.IsArithmetic ∧ prog ∈ a.programs ∧ prog.output = some e ∧
      prog' ∈ a'.programs ∧ prog'.output = some e' ∧ prog'.stage = prog.stage ∧
      Plan.make remainderOfUniforms { BuildOptions.standard with dialect := .glsl } [⟨2⟩] = .ok p ∧
      run p remainderRequest.roots = .ok s ∧
      Plan.make remainderOfUniforms { BuildOptions.standard with dialect := .wgsl } [⟨2⟩] = .ok p' ∧
      run p' remainderRequest.roots = .ok s' ∧
      (∀ q, a.code.Denotes .glsl (twoNumbers 5 3) s.uniform? prog.stage e q ↔ q = 2) ∧
        ∀ q, a'.code.Denotes .wgsl (twoNumbers 5 3) s'.uniform? prog.stage e' q ↔ q = 2 := by
  obtain ⟨a, ha, prog, hprog, hstage, e, he⟩ := built_remainderOfUniforms .glsl
  obtain ⟨a', ha', prog', hprog', hstage', e', he'⟩ := built_remainderOfUniforms .wgsl
  obtain ⟨p, s, p', s', root, hmake, hrun, hmake', hrun', hroot, same⟩ :=
    same_number (twoNumbers 5 3) ha ha'
    isArithmetic_remainderOfUniforms hprog he hprog' he' (hstage'.trans hstage.symm)
  obtain rfl : root = ⟨2⟩ := by
    rw [show remainderRequest.roots = [(.fragment, ⟨2⟩)] from rfl] at hroot
    exact (Prod.mk.inj (List.mem_singleton.1 hroot)).2
  have number : remainderOfUniforms.number? commonRemainder? (twoNumbers 5 3) ⟨2⟩ = some 2 := by
    rw [number?_remainderOfUniforms (by decide)]
    decide +kernel
  obtain ⟨glsl, wgsl⟩ := same 2 number
  exact ⟨a, a', prog, prog', e, e', p, s, p', s', ha, ha', isArithmetic_remainderOfUniforms,
    hprog, he,
    hprog', he', hstage'.trans hstage.symm, hmake, hrun, hmake', hrun', glsl, wgsl⟩

/-- The remainder of -1 and 2 is 1 in GLSL and -1 in WGSL. -/
theorem minus_one_differs :
    ∃ a a' prog prog' e e' p s p' s',
      build remainderOfUniforms remainderRequest
        { BuildOptions.standard with dialect := .glsl } = .ok a ∧
      build remainderOfUniforms remainderRequest
        { BuildOptions.standard with dialect := .wgsl } = .ok a' ∧
      remainderOfUniforms.IsArithmetic ∧
      remainderOfUniforms.number? Dialect.glsl.remainder? (twoNumbers (-1) 2) ⟨2⟩ = some 1 ∧
      remainderOfUniforms.number? Dialect.wgsl.remainder? (twoNumbers (-1) 2) ⟨2⟩ = some (-1) ∧
      prog ∈ a.programs ∧ prog.stage = .fragment ∧ prog.output = some e ∧
      prog' ∈ a'.programs ∧ prog'.stage = .fragment ∧ prog'.output = some e' ∧
      Plan.make remainderOfUniforms { BuildOptions.standard with dialect := .glsl } [⟨2⟩] = .ok p ∧
      run p remainderRequest.roots = .ok s ∧
      Plan.make remainderOfUniforms { BuildOptions.standard with dialect := .wgsl } [⟨2⟩] = .ok p' ∧
      run p' remainderRequest.roots = .ok s' ∧
      (∀ q, a.code.Denotes .glsl (twoNumbers (-1) 2) s.uniform? .fragment e q ↔ q = 1) ∧
        ∀ q, a'.code.Denotes .wgsl (twoNumbers (-1) 2) s'.uniform? .fragment e' q ↔ q = -1 := by
  obtain ⟨a, ha, prog, hprog, hstage, e, he⟩ := built_remainderOfUniforms .glsl
  obtain ⟨a', ha', prog', hprog', hstage', e', he'⟩ := built_remainderOfUniforms .wgsl
  obtain ⟨p, s, root, hmake, hrun, hroot, denotes⟩ := output_denotes (twoNumbers (-1) 2) ha
    isArithmetic_remainderOfUniforms hprog he
  obtain ⟨p', s', root', hmake', hrun', hroot', denotes'⟩ := output_denotes
    (twoNumbers (-1) 2) ha' isArithmetic_remainderOfUniforms hprog' he'
  rw [show remainderRequest.roots = [(.fragment, ⟨2⟩)] from rfl, List.mem_singleton] at hroot hroot'
  obtain rfl := (Prod.mk.inj hroot).2
  obtain rfl := (Prod.mk.inj hroot').2
  have glsl :
      remainderOfUniforms.number? Dialect.glsl.remainder? (twoNumbers (-1) 2) ⟨2⟩ = some 1 := by
    rw [number?_remainderOfUniforms (by decide)]
    decide +kernel
  have wgsl :
      remainderOfUniforms.number? Dialect.wgsl.remainder? (twoNumbers (-1) 2) ⟨2⟩ = some (-1) := by
    rw [number?_remainderOfUniforms (by decide)]
    decide +kernel
  refine ⟨a, a', prog, prog', e, e', p, s, p', s', ha, ha', isArithmetic_remainderOfUniforms, glsl,
    wgsl, hprog, hstage, he, hprog', hstage', he', hmake, hrun, hmake', hrun',
    fun q => ?_, fun q => ?_⟩
  · exact hstage ▸ denotes (Dialect.takes_remainder? _) glsl q
  · exact hstage' ▸ denotes' (Dialect.takes_remainder? _) wgsl q

end ShaderGraph
