import ShaderGraph.Proofs.Reading

/-!
# Code that reads in one way

Each local of the code gets its value once (`Code.Single`): it is declared with a value, or written
at the end of both sides of one branch. When moreover all that is assigned to a varying reads as what
the varying carries, an expression of the code reads in one way only (`Code.Reads.unique`).
-/

namespace ShaderGraph

namespace Statement

/-- The local that the last of some statements writes. -/
def lastWritten (ss : List Statement) : List String :=
  match ss.getLast? with
  | some (.assign (.reference (.local name)) _) => [name]
  | _ => []

/-- The local whose value a statement settles: once for each half of it. -/
def settles : Statement → List String
  | declare name _ (some _) _ _ => [name, name]
  | branch _ thenBody (some elseBody) => lastWritten thenBody ++ lastWritten elseBody
  | _ => []

/-- The locals whose values some statements and those in their blocks settle. -/
def settledIn (ss : List Statement) : List String := (nested ss).flatMap settles

variable {n : String}

theorem nested_cons (st : Statement) (rest : List Statement) :
    nested (st :: rest) = st :: (nested st.blocks ++ nested rest) := by
  rw [nested, collectIn, collect_eq]
  rfl

theorem count_settledIn_append (ss ss' : List Statement) :
    (settledIn (ss ++ ss')).count n = (settledIn ss).count n + (settledIn ss').count n := by
  rw [settledIn, nested, collectIn_append, List.flatMap_append, List.count_append]
  rfl

mutual

/-- What a statement settles was given by it or by the statements in its blocks. -/
theorem count_settles_le : ∀ st : Statement,
    st.settles.count n + (settledIn st.blocks).count n + (lastWritten [st]).count n ≤
      st.gives.count n + (givenIn st.blocks).count n
  | branch condition thenBody none => by
    have inner := count_settledIn_le thenBody
    have blocks : (branch condition thenBody none).blocks = thenBody := List.append_nil _
    rw [blocks]
    simp only [settles, lastWritten, List.getLast?_singleton, List.count_nil]
    omega
  | branch condition thenBody (some elseBody) => by
    have first := count_settledIn_le thenBody
    have second := count_settledIn_le elseBody
    have blocks : (branch condition thenBody (some elseBody)).blocks = thenBody ++ elseBody := rfl
    have last : lastWritten [branch condition thenBody (some elseBody)] = [] := rfl
    rw [blocks, count_settledIn_append, givenIn_append, List.count_append, last, settles,
      List.count_append, List.count_nil]
    omega
  | loop counter type start condition stop step body => by
    have inner := count_settledIn_le body
    show 0 + (settledIn body).count n + 0 ≤ 0 + (givenIn body).count n
    omega
  | assign place value => by
    have given : lastWritten [assign place value] = (assign place value).gives := by
      cases place with
      | reference r => cases r <;> rfl
      | _ => rfl
    rw [given]
    exact Nat.le_of_eq (Nat.add_comm _ _)
  | declare _ _ init _ _ => by
    cases init <;> exact Nat.le_refl _
  | update .. | call .. | jump _ => Nat.le_refl _

/-- What some statements settle was given by them. -/
theorem count_settledIn_le : ∀ ss : List Statement,
    (settledIn ss).count n + (lastWritten ss).count n ≤ (givenIn ss).count n
  | [] => Nat.le_refl _
  | st :: rest => by
    have first := count_settles_le st
    have others := count_settledIn_le rest
    have last : (lastWritten (st :: rest)).count n ≤
        (lastWritten [st]).count n + (lastWritten rest).count n := by
      cases rest with
      | nil => exact Nat.le_add_right _ _
      | cons st' rest =>
        have same : lastWritten (st :: st' :: rest) = lastWritten (st' :: rest) := by
          unfold lastWritten
          rw [List.getLast?_cons_cons]
        rw [same]
        exact Nat.le_add_left _ _
    rw [settledIn, givenIn, nested_cons, List.flatMap_cons, List.flatMap_cons, List.flatMap_append,
      List.flatMap_append]
    simp only [List.count_append]
    unfold settledIn givenIn at first others
    omega

end

end Statement

/-- Where something is found more often than once at an element, no other element has as much. -/
theorem eq_of_count_flatMap {α β : Type} [BEq β] {f : α → List β} {xs : List α} {n : β} {k : Nat}
    (h : (xs.flatMap f).count n < k + k) {a b : α} (ha : a ∈ xs) (hb : b ∈ xs)
    (hka : k ≤ (f a).count n) (hkb : k ≤ (f b).count n) : a = b := by
  have within : ∀ {ys : List α} {x : α}, x ∈ ys → (f x).count n ≤ (ys.flatMap f).count n := by
    intro ys x hx
    obtain ⟨l, r, rfl⟩ := List.append_of_mem hx
    rw [List.flatMap_append, List.flatMap_cons, List.count_append, List.count_append]
    omega
  obtain ⟨l, r, rfl⟩ := List.append_of_mem ha
  rw [List.flatMap_append, List.flatMap_cons, List.count_append, List.count_append] at h
  rcases List.mem_append.1 hb with hb | hb
  · have := within hb
    omega
  · rcases List.mem_cons.1 hb with rfl | hb
    · rfl
    · have := within hb
      omega

namespace Code

/-- Each local of the code gets its value once. -/
def Single (c : Code) : Prop := ∀ t n,
  (((c.locals t).filterMap Statement.own?).flatMap (fun n => [n, n])).count n +
    ((c.body t).flatMap Statement.settles).count n ≤ 2

/-- The code, with nothing known about varyings. -/
def plain (c : Code) : Code := { c with carries := fun _ _ => True }

variable {c : Code} {t : Stage} {n : String} {st st' : Statement}

/-- One statement settles the value of a local. -/
theorem Single.eq (h : c.Single) (hst : st ∈ c.body t) (hst' : st' ∈ c.body t)
    (hn : st.settles.count n = 2) (hn' : st'.settles.count n = 2) : st = st' :=
  eq_of_count_flatMap (k := 2) (Nat.lt_of_le_of_lt (Nat.le_of_add_left_le (h t n)) (by decide)) hst hst'
    hn.ge hn'.ge

/-- No statement settles the value of a local that is declared at the top. -/
theorem Single.not_property (h : c.Single) {type : ValueType} {m : Mutability}
    {owner : Option CacheKey} (hd : .declare n type none m owner ∈ c.locals t) (hst : st ∈ c.body t)
    (hn : st.settles.count n = 2) : False := by
  have top : n ∈ (c.locals t).filterMap Statement.own? :=
    List.mem_filterMap.2 ⟨_, hd, rfl⟩
  obtain ⟨l, r, hl⟩ := List.append_of_mem top
  obtain ⟨l', r', hb⟩ := List.append_of_mem hst
  have single := h t n
  rw [hl, hb] at single
  simp only [List.flatMap_append, List.flatMap_cons, List.count_append, hn, List.count_cons_self,
    List.count_nil] at single
  omega

theorem count_settles_branch {condition value value' : Expr} {thenBody elseBody : List Statement}
    (ht : thenBody.getLast? = some (.assign (.reference (.local n)) value))
    (he : elseBody.getLast? = some (.assign (.reference (.local n)) value')) :
    (Statement.settles (.branch condition thenBody (some elseBody))).count n = 2 := by
  have settles : Statement.settles (.branch condition thenBody (some elseBody)) = [n, n] := by
    rw [Statement.settles, Statement.lastWritten, ht, Statement.lastWritten, he]
    rfl
  rw [settles]
  simp

theorem count_settles_declare {type : ValueType} {init : Expr} {m : Mutability}
    {owner : Option CacheKey} :
    (Statement.settles (.declare n type (some init) m owner)).count n = 2 := by
  simp [Statement.settles]

/-- The code has a single reading: locals get their values once, a varying carries one value, and
what is assigned to it reads as that. -/
structure Definite (c : Code) : Prop where
  single : c.Single
  carries : ∀ {n u u'}, c.carries n u → c.carries n u' → u = u'
  assigned : ∀ {n value}, .assign (.reference (.varying .vertex n)) value ∈ c.body .vertex →
    ∃ u, c.carries n u ∧ c.Reads .vertex value u

mutual

/-- What is known about varyings only restricts how code reads. -/
theorem Reads.forget {t : Stage} {e u : Expr} : c.Reads t e u → c.plain.Reads t e u
  | .literal => .literal
  | .input hr => .input hr
  | .property hd => .property hd
  | .temp hst h => .temp hst h.forget
  | .branch hst ht he h h₁ h₂ => .branch hst ht he h.forget h₁.forget h₂.forget
  | .varying hst h _ => .varying hst h.forget trivial
  | .construct h => .construct h.forget
  | .operator hl hr => .operator hl.forget hr.forget
  | .remainder hl hr => .remainder hl.forget hr.forget
  | .unary h => .unary h.forget
  | .math h => .math h.forget
  | .select h₁ h₂ h₃ => .select h₁.forget h₂.forget h₃.forget
  | .sample h hl => .sample h.forget hl.forget
  | .swizzle h => .swizzle h.forget
  | .member h => .member h.forget
  | .index h hi => .index h.forget hi.forget

theorem ReadsAll.forget {t : Stage} {es us : List Expr} : c.ReadsAll t es us → c.plain.ReadsAll t es us
  | .nil => .nil
  | .cons h hs => .cons h.forget hs.forget

end

mutual

/-- An expression of definite code reads in one way. -/
theorem Reads.unique (hc : c.Definite) {t : Stage} {e u u' : Expr} :
    c.plain.Reads t e u → c.Reads t e u' → u = u'
  | .literal, h' => by cases h'; rfl
  | .input hr, h' => by
    cases h' with
    | input => rfl
    | property => cases hr
    | temp => cases hr
    | branch => cases hr
    | varying => cases hr
  | .property hd, h' => by
    cases h' with
    | input hr => cases hr
    | property => rfl
    | temp hst => exact (hc.single.not_property hd hst count_settles_declare).elim
    | branch hst ht he => exact (hc.single.not_property hd hst (count_settles_branch ht he)).elim
  | .temp hst h, h' => by
    cases h' with
    | input hr => cases hr
    | property hd => exact (hc.single.not_property hd hst count_settles_declare).elim
    | temp hst' h' =>
      cases hc.single.eq hst hst' count_settles_declare count_settles_declare
      exact h.unique hc h'
    | branch hst' ht he =>
      cases hc.single.eq hst hst' count_settles_declare (count_settles_branch ht he)
  | .branch hst ht he h h₁ h₂, h' => by
    cases h' with
    | input hr => cases hr
    | property hd => exact (hc.single.not_property hd hst (count_settles_branch ht he)).elim
    | temp hst' => cases hc.single.eq hst hst' (count_settles_branch ht he) count_settles_declare
    | branch hst' ht' he' h' h₁' h₂' =>
      cases hc.single.eq hst hst' (count_settles_branch ht he) (count_settles_branch ht' he')
      cases ht.symm.trans ht'
      cases he.symm.trans he'
      rw [h.unique hc h', h₁.unique hc h₁', h₂.unique hc h₂']
  | .varying hst h _, h' => by
    cases h' with
    | input hr => cases hr
    | varying _ _ hn' =>
      obtain ⟨w, hw, reads⟩ := hc.assigned hst
      rw [h.unique hc reads]
      exact hc.carries hw hn'
  | .construct h, h' => by
    cases h' with | construct h' => rw [h.unique hc h']
  | .operator hl hr, h' => by
    cases h' with | operator hl' hr' => rw [hl.unique hc hl', hr.unique hc hr']
  | .remainder hl hr, h' => by
    cases h' with | remainder hl' hr' => rw [hl.unique hc hl', hr.unique hc hr']
  | .unary h, h' => by
    cases h' with | unary h' => rw [h.unique hc h']
  | .math h, h' => by
    cases h' with | math h' => rw [h.unique hc h']
  | .select h₁ h₂ h₃, h' => by
    cases h' with
    | select h₁' h₂' h₃' => rw [h₁.unique hc h₁', h₂.unique hc h₂', h₃.unique hc h₃']
  | .sample h hl, h' => by
    cases h' with
    | sample h' hl' =>
      have level := congrArg List.head? (hl.unique hc hl')
      rw [Option.head?_toList, Option.head?_toList] at level
      rw [h.unique hc h', level]
  | .swizzle h, h' => by
    cases h' with | swizzle h' => rw [h.unique hc h']
  | .member h, h' => by
    cases h' with | member h' => rw [h.unique hc h']
  | .index h hi, h' => by
    cases h' with | index h' hi' => rw [h.unique hc h', hi.unique hc hi']

/-- Some expressions of definite code read in one way. -/
theorem ReadsAll.unique (hc : c.Definite) {t : Stage} {es us us' : List Expr} :
    c.plain.ReadsAll t es us → c.ReadsAll t es us' → us = us'
  | .nil, h' => by cases h'; rfl
  | .cons h hs, h' => by
    cases h' with | cons h' hs' => rw [h.unique hc h', hs.unique hc hs']

end

end Code

end ShaderGraph
