import ShaderGraph.Proofs.Collected
import ShaderGraph.Proofs.Conversions

/-!
# Names in scope

`Statement.Scoped known scope ss` says that the statements `ss` of a block refer only to locals in
scope and to what is `known` everywhere. A declaration is in scope from the next statement of its
block on, a counter inside of its loop, and neither hides a name that is in scope already.
-/

namespace ShaderGraph

namespace Expr

mutual

/-- What an expression refers to. -/
def references : Expr → List Reference
  | literal .. => []
  | reference r => [r]
  | construct _ args | math _ args | call _ args => referencesIn args
  | operator _ left right | remainder left right => left.references ++ right.references
  | unary _ e | swizzle e _ | member e _ | address e => e.references
  | select condition whenTrue whenFalse =>
    condition.references ++ (whenTrue.references ++ whenFalse.references)
  | sample _ _ uv level => uv.references ++ optionReferences level
  | index base i => base.references ++ i.references

/-- What some expressions refer to. -/
def referencesIn : List Expr → List Reference
  | [] => []
  | e :: rest => e.references ++ referencesIn rest

/-- What an expression refers to, if there is one. -/
def optionReferences : Option Expr → List Reference
  | none => []
  | some e => e.references

end

/-- The expression refers only to locals in scope and to what is known everywhere. -/
def Refers (known : Reference → Prop) (scope : List String) (e : Expr) : Prop :=
  ∀ r ∈ e.references, known r ∨ ∃ n ∈ scope, r = .local n

variable {known known' : Reference → Prop} {scope scope' : List String} {e : Expr} {es : List Expr}

theorem Refers.mono (hk : ∀ r, known r → known' r) (hs : scope ⊆ scope')
    (h : e.Refers known scope) : e.Refers known' scope' :=
  fun r hr => (h r hr).imp (hk r) fun ⟨n, hn, he⟩ => ⟨n, hs hn, he⟩

theorem mem_referencesIn {r : Reference} : r ∈ referencesIn es ↔ ∃ e ∈ es, r ∈ e.references := by
  induction es with
  | nil => simp [referencesIn]
  | cons e rest ih => rw [referencesIn, List.mem_append, ih, List.exists_mem_cons_iff]

theorem mem_optionReferences {r : Reference} {e : Option Expr} :
    r ∈ optionReferences e ↔ ∃ x, e = some x ∧ r ∈ x.references := by
  cases e with
  | none => simp [optionReferences]
  | some x => simp [optionReferences]

/-- Expressions that are made of some others. -/
theorem refers_of_args (h : ∀ x ∈ es, x.Refers known scope) {e : Expr}
    (he : ∀ r ∈ e.references, r ∈ referencesIn es) : e.Refers known scope := by
  intro r hr
  obtain ⟨x, hx, hr⟩ := mem_referencesIn.1 (he r hr)
  exact h x hx r hr

@[simp] theorem refers_literal (kind : ScalarKind) (value : Float) :
    (literal kind value).Refers known scope := fun _ hr => nomatch hr

theorem refers_reference {r : Reference} :
    (reference r).Refers known scope ↔ known r ∨ ∃ n ∈ scope, r = .local n :=
  ⟨fun h => h r (.head _), fun h _ hr => List.mem_singleton.1 hr ▸ h⟩

theorem refers_local {name : String} (h : name ∈ scope) :
    (reference (.local name)).Refers known scope := refers_reference.2 (.inr ⟨name, h, rfl⟩)

@[simp] theorem refers_construct {type : ValueType} :
    (construct type es).Refers known scope ↔ ∀ x ∈ es, x.Refers known scope := by
  refine ⟨fun h x hx r hr => h r (mem_referencesIn.2 ⟨x, hx, hr⟩), fun h => ?_⟩
  exact refers_of_args h fun _ hr => hr

@[simp] theorem refers_math {m : MathMethod} :
    (math m es).Refers known scope ↔ ∀ x ∈ es, x.Refers known scope := by
  refine ⟨fun h x hx r hr => h r (mem_referencesIn.2 ⟨x, hx, hr⟩), fun h => ?_⟩
  exact refers_of_args h fun _ hr => hr

@[simp] theorem refers_call {f : String} :
    (call f es).Refers known scope ↔ ∀ x ∈ es, x.Refers known scope := by
  refine ⟨fun h x hx r hr => h r (mem_referencesIn.2 ⟨x, hx, hr⟩), fun h => ?_⟩
  exact refers_of_args h fun _ hr => hr

variable {left right c : Expr}

@[simp] theorem refers_operator {op : BinaryOp} : (operator op left right).Refers known scope ↔
    left.Refers known scope ∧ right.Refers known scope := List.forall_mem_append

@[simp] theorem refers_remainder : (remainder left right).Refers known scope ↔
    left.Refers known scope ∧ right.Refers known scope := List.forall_mem_append

@[simp] theorem refers_index : (index left right).Refers known scope ↔
    left.Refers known scope ∧ right.Refers known scope := List.forall_mem_append

@[simp] theorem refers_select : (select c left right).Refers known scope ↔
    c.Refers known scope ∧ left.Refers known scope ∧ right.Refers known scope := by
  unfold Refers
  rw [references, List.forall_mem_append, List.forall_mem_append]

@[simp] theorem refers_unary {op : UnaryOp} :
    (unary op e).Refers known scope ↔ e.Refers known scope := .rfl

@[simp] theorem refers_swizzle {cs : List Component} :
    (swizzle e cs).Refers known scope ↔ e.Refers known scope := .rfl

@[simp] theorem refers_member {name : String} :
    (member e name).Refers known scope ↔ e.Refers known scope := .rfl

@[simp] theorem refers_address : (address e).Refers known scope ↔ e.Refers known scope := .rfl

@[simp] theorem refers_sample {texture sampler : String} {level : Option Expr} :
    (sample texture sampler e level).Refers known scope ↔
      e.Refers known scope ∧ ∀ x, level = some x → x.Refers known scope := by
  unfold Refers
  rw [references, List.forall_mem_append]
  refine and_congr_right fun _ => ⟨fun h x hx r hr => ?_, fun h r hr => ?_⟩
  · exact h r (mem_optionReferences.2 ⟨x, hx, hr⟩)
  · obtain ⟨x, hx, hr⟩ := mem_optionReferences.1 hr
    exact h x hx r hr

/-! ### Conversions -/

/-- A conversion refers to what is converted. -/
theorem Refers.coerce (h : e.Refers known scope) {source target : ValueType} {e' : Expr}
    (he : e.coerce source target = .ok e') : e'.Refers known scope :=
  coerce_induction (fun _ _ _ => refers_construct.2) h he

theorem Refers.convert (h : e.Refers known scope) {source target : ValueType} {e' : Expr}
    (he : e.convert source target = .ok e') : e'.Refers known scope :=
  convert_induction (fun _ _ _ => refers_construct.2) (fun _ _ => id) refers_literal h he

end Expr

namespace Statement

/-- The name that a declaration declares. -/
def binds? : Statement → Option String
  | declare name .. => some name
  | _ => none

/-- The names that the declarations among some statements declare. -/
def bound (ss : List Statement) : List String := ss.filterMap binds?

/-- The names that declarations declare in some statements and in their blocks. -/
def boundIn (ss : List Statement) : List String := collectIn (fun st => st.binds?.toList) ss

theorem bound_append (ss ss' : List Statement) : bound (ss ++ ss') = bound ss ++ bound ss' :=
  List.filterMap_append

theorem boundIn_append (ss ss' : List Statement) :
    boundIn (ss ++ ss') = boundIn ss ++ boundIn ss' := collectIn_append ss ss'

theorem bound_sublist_boundIn (ss : List Statement) : (bound ss).Sublist (boundIn ss) := by
  induction ss with
  | nil => exact .slnil
  | cons st rest ih =>
    have head : (st.binds?.toList).Sublist (st.collect fun st => st.binds?.toList) := by
      rw [collect_eq]
      exact List.sublist_append_left _ _
    have split : bound (st :: rest) = st.binds?.toList ++ bound rest := by
      unfold bound
      rw [List.filterMap_cons]
      cases st.binds? <;> rfl
    rw [split]
    exact head.append ih

theorem bound_subset_boundIn (ss : List Statement) : bound ss ⊆ boundIn ss :=
  (bound_sublist_boundIn ss).subset

/-- The statements of a block refer to locals in scope and to what is known everywhere. -/
inductive Scoped (known : Reference → Prop) : List String → List Statement → Prop
  | nil {scope : List String} : Scoped known scope []
  | declare {scope : List String} {name : String} {type : ValueType} {init : Option Expr}
      {m : Mutability} {owner : Option CacheKey} {rest : List Statement} (fresh : name ∉ scope)
      (value : ∀ e, init = some e → e.Refers known scope)
      (after : Scoped known (name :: scope) rest) :
      Scoped known scope (.declare name type init m owner :: rest)
  | assign {scope : List String} {place value : Expr} {rest : List Statement}
      (hp : place.Refers known scope) (hv : value.Refers known scope)
      (after : Scoped known scope rest) : Scoped known scope (.assign place value :: rest)
  | update {scope : List String} {place value : Expr} {op : BinaryOp} {rest : List Statement}
      (hp : place.Refers known scope) (hv : value.Refers known scope)
      (after : Scoped known scope rest) : Scoped known scope (.update place op value :: rest)
  | call {scope : List String} {function : String} {args : List Expr} {rest : List Statement}
      (hargs : ∀ e ∈ args, e.Refers known scope) (after : Scoped known scope rest) :
      Scoped known scope (.call function args :: rest)
  | jump {scope : List String} {j : Jump} {rest : List Statement}
    (after : Scoped known scope rest) :
      Scoped known scope (.jump j :: rest)
  | branch {scope : List String} {condition : Expr} {thenBody : List Statement}
      {elseBody : Option (List Statement)} {rest : List Statement}
      (hc : condition.Refers known scope) (ht : Scoped known scope thenBody)
      (he : Scoped known scope (elseBody.getD [])) (after : Scoped known scope rest) :
      Scoped known scope (.branch condition thenBody elseBody :: rest)
  | loop {scope : List String} {counter : String} {type : ValueType} {start stop : Expr}
      {condition : BinaryOp} {step : Float} {body rest : List Statement} (fresh : counter ∉ scope)
      (hstart : start.Refers known scope) (hstop : stop.Refers known scope)
      (hbody : Scoped known (counter :: scope) body) (after : Scoped known scope rest) :
      Scoped known scope (.loop counter type start condition stop step body :: rest)

namespace Scoped

variable {known known' : Reference → Prop} {scope scope' : List String} {ss ss' : List Statement}

/-- More may be known, and only the names in scope matter. -/
theorem mono (h : Scoped known scope ss) (hk : ∀ r, known r → known' r)
    (hs : ∀ n, n ∈ scope' ↔ n ∈ scope) : Scoped known' scope' ss := by
  have cons : ∀ {scope scope' : List String} (name : String), (∀ n, n ∈ scope' ↔ n ∈ scope) →
      ∀ n, n ∈ name :: scope' ↔ n ∈ name :: scope := fun name hs n => by
    rw [List.mem_cons, List.mem_cons, hs]
  induction h generalizing scope' with
  | nil => exact .nil
  | declare fresh value _ ih =>
    exact .declare (fun hn => fresh ((hs _).1 hn))
      (fun e he => (value e he).mono hk fun n hn => (hs n).2 hn) (ih (cons _ hs))
  | assign place value _ ih =>
    exact .assign (place.mono hk fun n hn => (hs n).2 hn)
      (value.mono hk fun n hn => (hs n).2 hn) (ih hs)
  | update place value _ ih =>
    exact .update (place.mono hk fun n hn => (hs n).2 hn)
      (value.mono hk fun n hn => (hs n).2 hn) (ih hs)
  | call args _ ih => exact .call (fun e he => (args e he).mono hk fun n hn => (hs n).2 hn) (ih hs)
  | jump _ ih => exact .jump (ih hs)
  | branch condition _ _ _ iht ihe ih =>
    exact .branch (condition.mono hk fun n hn => (hs n).2 hn) (iht hs) (ihe hs) (ih hs)
  | loop fresh start stop _ _ ihb ih =>
    exact .loop (fun hn => fresh ((hs _).1 hn)) (start.mono hk fun n hn => (hs n).2 hn)
      (stop.mono hk fun n hn => (hs n).2 hn) (ihb (cons _ hs)) (ih hs)

/-- Behind some statements what they declare is in scope. -/
theorem append (h : Scoped known scope ss) (h' : Scoped known (bound ss ++ scope) ss') :
    Scoped known scope (ss ++ ss') := by
  induction h with
  | nil => exact h'
  | @declare scope name _ _ _ _ rest fresh value _ ih =>
    refine .declare fresh value (ih (h'.mono (fun _ hr => hr) fun n => ?_))
    show _ ↔ n ∈ name :: (bound rest ++ scope)
    simp only [List.mem_append, List.mem_cons]
    exact or_left_comm
  | assign place value _ ih => exact .assign place value (ih h')
  | update place value _ ih => exact .update place value (ih h')
  | call args _ ih => exact .call args (ih h')
  | jump _ ih => exact .jump (ih h')
  | branch condition t e _ _ _ ih => exact .branch condition t e (ih h')
  | loop fresh start stop body _ _ ih => exact .loop fresh start stop body (ih h')

end Scoped

end Statement

end ShaderGraph
