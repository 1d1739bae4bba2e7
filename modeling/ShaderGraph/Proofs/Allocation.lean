import Mathlib.Data.List.Nodup
import Mathlib.Data.List.Perm.Subperm
import ShaderGraph.Name.Table
import ShaderGraph.Native.Reader

/-!
# Allocation of names

A name that is claimed in a table was free there and in the enclosing table (`claim_free`,
`claimNumbered_free`): the candidates are different names, and there is one more of them than there
are names that are taken. Where it is not the preferred name, the preferred one is taken
(`claim_near`).

`NameTables` are several tables with the record of what became of their names; `NameTables.run` makes
the calls of a history one after another. A table holds a name (`Holds`) that it took last, be it as a
reserved word, and has not released since; that is what the table knows (`isUsed_run`).

A name that is given out is held neither by the table itself nor by the enclosing one. It is an
identifier if it is claimed, or numbered from a stem that is one. The number of a claimed name is put
behind an identifier that was cleaned up before, so two underscores stand in front of it exactly when
nothing but an underscore was left and that name is held (`run_gives`).
-/

namespace ShaderGraph

/-! ## Free names -/

/-! ### Identifiers -/

namespace Name

theorem all_dropDoubled {cs : List Char} (h : cs.all isWordChar = true) :
    (dropDoubled cs).all isWordChar = true := by
  fun_induction dropDoubled cs with
  | case1 rest ih => exact ih (Bool.and_eq_true_iff.1 h).2
  | case2 cs => exact h

theorem all_guardFront {cs : List Char} (h : cs.all isWordChar = true) :
    (guardFront cs).all isWordChar = true := by
  unfold guardFront
  split
  · rfl
  · split
    · exact h
    · exact h

/-- The characters of an identifier are those of words. -/
theorem all_sanitizeChars (cs : List Char) : (sanitizeChars cs).all isWordChar = true := by
  refine all_dropDoubled (all_guardFront ?_)
  rw [List.all_map, List.all_eq_true]
  intro c _
  show isWordChar (if isWordChar c then c else '_') = true
  split
  · next h => exact h
  · rfl

theorem head_dropDoubled (cs : List Char) : (dropDoubled cs).head? = cs.head? := by
  fun_induction dropDoubled cs with
  | case1 rest ih => exact ih
  | case2 => rfl

theorem head_sanitizeChars (cs : List Char) : ∀ c ∈ (sanitizeChars cs).head?, c.isDigit = false := by
  rw [sanitizeChars, head_dropDoubled]
  unfold guardFront
  split
  · rintro c ⟨⟩
    rfl
  · split
    · rintro c ⟨⟩
      rfl
    · next h =>
      rintro c ⟨⟩
      simpa using h

theorem dropDoubled_of_single {cs : List Char} (h : ∀ rest, cs ≠ '_' :: '_' :: rest) :
    dropDoubled cs = cs := by
  unfold dropDoubled
  split
  · next rest => exact absurd rfl (h rest)
  · rfl

/-- A text does not become an identifier by losing an underscore, a digit and more at its end. -/
theorem sanitizeChars_append_ne (cs ds : List Char) {d : Char} (hd : d.isDigit = true) :
    sanitizeChars (sanitizeChars cs ++ '_' :: d :: ds) ≠ sanitizeChars cs := by
  have word := all_sanitizeChars cs
  have first := head_sanitizeChars cs
  have single : ∀ rest, sanitizeChars cs ≠ '_' :: '_' :: rest := dropDoubled_not_doubled _
  have nonempty := sanitizeChars_ne_nil cs
  generalize sanitizeChars cs = b at word first single nonempty
  have digit : isWordChar d = true := by
    unfold isWordChar Char.isAlphanum
    rw [hd, Bool.or_true, Bool.true_or]
  have ne : d ≠ '_' := by
    rintro rfl
    cases hd
  have mapped : (b.map fun c => if isWordChar c then c else '_') = b := by
    conv_rhs => rw [← List.map_id b]
    exact List.map_congr_left fun c hc => if_pos (List.all_eq_true.1 word c hc)
  rw [sanitizeChars, List.map_append, mapped, List.map_cons, List.map_cons, if_pos digit]
  generalize ds.map _ = ds'
  cases b with
  | nil => exact absurd rfl nonempty
  | cons c b =>
    have undigit : c.isDigit = false := first c rfl
    rw [show (if isWordChar '_' = true then '_' else '_') = '_' from rfl, List.cons_append,
      guardFront, if_neg (Bool.eq_false_iff.1 undigit)]
    cases b with
    | nil =>
      by_cases hc : c = '_'
      · subst hc
        rw [List.nil_append, dropDoubled, dropDoubled_of_single fun rest h => ?_]
        · exact fun h => nomatch h
        · exact ne (List.cons.inj (List.cons.inj h).2).1
      · rw [dropDoubled_of_single fun rest h => hc (List.cons.inj h).1]
        exact fun h => nomatch h
    | cons c' b =>
      rw [dropDoubled_of_single fun rest h => ?_]
      · intro h
        have length := congrArg List.length h
        simp only [List.length_cons, List.length_append] at length
        omega
      · obtain ⟨rfl, tail⟩ := List.cons.inj h
        obtain ⟨rfl, -⟩ := List.cons.inj tail
        exact single b rfl

end Name

namespace NameTable

variable {taken : String → Bool} {candidate : Nat → String}

/-- Where the search ends at a name that is taken, all candidates were taken. -/
theorem taken_of_firstFree {fuel n : Nat}
    (h : taken (candidate (firstFree taken candidate fuel n)) = true) :
    ∀ i < fuel, taken (candidate (n + i)) = true := by
  induction fuel generalizing n with
  | zero => exact fun i hi => absurd hi (Nat.not_lt_zero i)
  | succ fuel ih =>
    rw [firstFree] at h
    split at h
    · next first =>
      intro i hi
      cases i with
      | zero => exact first
      | succ i =>
        rw [Nat.add_succ, ← Nat.succ_add]
        exact ih h i (Nat.lt_of_succ_lt_succ hi)
    · next first => exact absurd h first

/-- Among different candidates that are more than the names taken, one is free. -/
theorem firstFree_free {names : List String} {fuel n : Nat} (hc : Function.Injective candidate)
    (ht : ∀ name, taken name = true → name ∈ names) (hf : names.length < fuel) :
    taken (candidate (firstFree taken candidate fuel n)) = false := by
  by_contra h
  have all := taken_of_firstFree (by simpa using h)
  let tried := (List.range fuel).map fun i => candidate (n + i)
  have sub : tried ⊆ names := by
    intro name hname
    obtain ⟨i, hi, rfl⟩ := List.mem_map.1 hname
    exact ht _ (all i (List.mem_range.1 hi))
  have nodup : tried.Nodup := List.nodup_range.map fun i j hij => Nat.add_left_cancel (hc hij)
  have length := (nodup.subperm sub).length_le
  rw [List.length_map, List.length_range] at length
  omega

theorem toString_injective : Function.Injective (toString : Nat → String) := by
  intro m n h
  have digits : Nat.toDigits 10 m = Nat.toDigits 10 n := by
    rw [← Nat.toList_repr, ← Nat.toList_repr]
    exact congrArg String.toList h
  rw [← Nat.ofDigitChars_ten_toDigits (n := m), digits, Nat.ofDigitChars_ten_toDigits]

theorem append_injective (stem : String) : Function.Injective fun n : Nat => stem ++ toString n :=
  fun _ _ h => toString_injective (String.append_right_inj stem |>.1 h)

theorem suffixed_injective (base : String) : Function.Injective (suffixed base) := by
  have longer : ∀ n, suffixed base (n + 1) ≠ base := by
    intro n h
    have length := congrArg String.length h
    rw [suffixed, String.length_append, String.length_append] at length
    have : "_".length = 1 := rfl
    omega
  intro m n h
  cases m with
  | zero =>
    cases n with
    | zero => rfl
    | succ n => exact absurd h.symm (longer n)
  | succ m =>
    cases n with
    | zero => exact absurd h (longer m)
    | succ n => exact append_injective (base ++ "_") h

variable (t outer : NameTable)

/-- Only names of the two tables are taken. -/
theorem mem_of_isTaken {name : String} (h : t.isTaken outer name = true) :
    name ∈ t.names ++ outer.names := by
  unfold isTaken isUsed at h
  simpa using h

theorem length_lt_candidates : (t.names ++ outer.names).length < t.candidates outer := by
  rw [List.length_append]
  exact Nat.lt_succ_self _

/-- A name that is claimed was free. -/
theorem claim_free (preferred : String) : t.isTaken outer (t.claim outer preferred).1 = false :=
  firstFree_free (suffixed_injective _) (fun _ => t.mem_of_isTaken outer)
    (t.length_lt_candidates outer)

/-- A numbered name that is claimed was free. -/
theorem claimNumbered_free (stem : String) (counter : Nat) :
    t.isTaken outer (t.claimNumbered outer stem counter).1 = false :=
  firstFree_free (append_injective stem) (fun _ => t.mem_of_isTaken outer)
    (t.length_lt_candidates outer)

/-- A name was claimed near a preferred one, which is taken. -/
def Near (t : NameTable) (preferred name : String) : Prop :=
  t.isUsed (Name.sanitize preferred) = true ∧ ∃ k, name = suffixed (Name.sanitize preferred) k

theorem claim_near (preferred : String) :
    (t.claim .empty preferred).2.Near preferred (t.claim .empty preferred).1 := by
  refine ⟨?_, _, rfl⟩
  unfold claim
  dsimp only
  rw [isUsed_reserve, Bool.or_eq_true, beq_iff_eq]
  -- the search goes on from the first candidate only if this one is taken
  generalize candidates t .empty = fuel
  cases fuel with
  | zero => exact .inl rfl
  | succ fuel =>
    rw [firstFree]
    split
    · next first =>
      rw [suffixed, isTaken, Bool.or_eq_true] at first
      exact .inr (first.resolve_right fun h => by cases h)
    · exact .inl rfl

variable {t} {t' : NameTable} {preferred name : String}

theorem Near.mono (h : t.Near preferred name)
    (ht : ∀ n, t.isUsed n = true → t'.isUsed n = true) : t'.Near preferred name :=
  ⟨ht _ h.1, h.2⟩

/-- Only an identifier is claimed as it is. -/
theorem Near.sanitize_eq (h : t.Near name name) : Name.sanitize name = name := by
  obtain ⟨-, k, hk⟩ := h
  cases k with
  | zero => exact hk.symm
  | succ k =>
    obtain ⟨d, ds, digits⟩ := List.exists_cons_of_ne_nil (Nat.toDigits_ne_nil (n := k + 1) (b := 10))
    have digit : d.isDigit = true :=
      Nat.isDigit_of_mem_toDigits (by decide) (by decide) (digits ▸ List.mem_cons_self)
    have text : name.toList = Name.sanitizeChars name.toList ++ '_' :: d :: ds := by
      conv_lhs => rw [hk, suffixed, String.toList_append, String.toList_append]
      rw [Name.sanitize, String.toList_ofList, ← digits, ← Nat.toList_repr, List.append_assoc]
      rfl
    have same := Name.sanitizeChars_append_ne name.toList ds digit
    rw [← text] at same
    exact absurd rfl same

end NameTable

/-! ## Names that tables give out -/

/-! ### Identifiers -/

namespace Name

open Native (isIdentifier)

variable {cs ds : List Char} {d : Char}

/-- Two underscores stand in front, which both dialects reserve. -/
def IsDoubled (cs : List Char) : Prop := ∃ rest, cs = '_' :: '_' :: rest

theorem isIdentifier_iff : isIdentifier cs = true ↔
    cs ≠ [] ∧ cs.all isWordChar = true ∧ ∀ c ∈ cs.head?, c.isDigit = false := by
  cases cs with
  | nil => simp [isIdentifier]
  | cons c cs =>
    rw [isIdentifier, List.all_cons, Bool.and_eq_true, Bool.and_eq_true, Bool.and_eq_true,
      Bool.not_eq_true']
    constructor
    · rintro ⟨⟨word, first⟩, rest⟩
      refine ⟨List.cons_ne_nil _ _, ⟨word, rest⟩, ?_⟩
      rintro d ⟨⟩
      exact first
    · rintro ⟨-, ⟨word, rest⟩, first⟩
      exact ⟨⟨word, first c rfl⟩, rest⟩

/-- Every text becomes an identifier. -/
theorem isIdentifier_sanitizeChars (cs : List Char) : isIdentifier (sanitizeChars cs) = true :=
  isIdentifier_iff.2 ⟨sanitizeChars_ne_nil cs, all_sanitizeChars cs, head_sanitizeChars cs⟩

theorem not_isDoubled_sanitizeChars (cs : List Char) : ¬ IsDoubled (sanitizeChars cs) :=
  fun ⟨rest, h⟩ => dropDoubled_not_doubled _ rest h

/-- What stands behind an identifier does not matter, as long as it consists of letters, digits and
underscores. -/
theorem isIdentifier_append (hne : cs ≠ []) (hds : ds.all isWordChar = true) :
    isIdentifier (cs ++ ds) = true ↔ isIdentifier cs = true := by
  obtain ⟨c, cs, rfl⟩ := List.exists_cons_of_ne_nil hne
  rw [List.cons_append, isIdentifier, isIdentifier, List.all_append, hds, Bool.and_true]

/-- Two underscores stand in front of a longer text if they stand there before, or if the text was
one underscore and goes on with another. -/
theorem isDoubled_append (hne : cs ≠ []) :
    IsDoubled (cs ++ d :: ds) ↔ IsDoubled cs ∨ cs = ['_'] ∧ d = '_' := by
  obtain ⟨c, cs, rfl⟩ := List.exists_cons_of_ne_nil hne
  cases cs with
  | nil => simp [IsDoubled]
  | cons c' cs => simp [IsDoubled]

theorem isWordChar_of_isDigit (hd : d.isDigit = true) : isWordChar d = true := by
  simp [isWordChar, Char.isAlphanum, hd]

/-- The digits of a number: a first one and more. -/
theorem exists_digits (n : Nat) : ∃ d ds, (toString n).toList = d :: ds ∧ d.isDigit = true ∧
    (d :: ds).all isWordChar = true := by
  obtain ⟨d, ds, digits⟩ := List.exists_cons_of_ne_nil (Nat.toDigits_ne_nil (n := n) (b := 10))
  have digit : ∀ c ∈ d :: ds, c.isDigit = true := fun c hc =>
    Nat.isDigit_of_mem_toDigits (by decide) (by decide) (digits ▸ hc)
  refine ⟨d, ds, ?_, digit d List.mem_cons_self, ?_⟩
  · rw [← digits, ← Nat.toList_repr]
    rfl
  · exact List.all_eq_true.2 fun c hc => isWordChar_of_isDigit (digit c hc)

theorem dropDoubled_underscores (n : Nat) :
    dropDoubled (List.replicate (n + 1) '_') = ['_'] := by
  induction n with
  | zero => rfl
  | succ n ih => rwa [List.replicate_succ, List.replicate_succ, dropDoubled, ← List.replicate_succ]

/-- Nothing but an underscore is left of a text without ASCII letters and digits. -/
theorem sanitizeChars_eq_underscore : sanitizeChars cs = ['_'] ↔
    ∀ c ∈ cs, c.isAlphanum = false := by
  constructor
  · intro h c hc
    by_contra letter
    have kept : c ∈ cs.map fun c => if isWordChar c then c else '_' := by
      refine List.mem_map.2 ⟨c, hc, if_pos ?_⟩
      rw [isWordChar, (Bool.not_eq_false _).mp letter, Bool.true_or]
    -- a letter or a digit is dropped nowhere
    have stays : ∀ ds : List Char, c ∈ ds → c ∈ dropDoubled ds := by
      intro ds
      fun_induction dropDoubled ds with
      | case1 rest ih =>
        intro hc
        refine ih ((List.mem_cons.1 hc).resolve_left ?_)
        rintro rfl
        exact letter rfl
      | case2 => exact id
    have guarded : ∀ ds : List Char, c ∈ ds → c ∈ guardFront ds := by
      intro ds hc
      unfold guardFront
      split
      · cases hc
      · split
        · exact List.mem_cons_of_mem _ hc
        · exact hc
    have left : c ∈ sanitizeChars cs := stays _ (guarded _ kept)
    rw [h, List.mem_singleton] at left
    exact letter (left ▸ rfl)
  · intro h
    have blank : (cs.map fun c => if isWordChar c then c else '_') =
        List.replicate cs.length '_' := by
      refine List.map_eq_replicate_iff.2 fun c hc => ?_
      unfold isWordChar
      rw [h c hc, Bool.false_or]
      split
      · next underscore => exact beq_iff_eq.1 underscore
      · rfl
    rw [sanitizeChars, blank]
    cases cs.length with
    | zero => rfl
    | succ n => exact dropDoubled_underscores n

end Name

/-! ### Histories -/

/-- A call of a name table. -/
inductive NameCall
  | claim (preferred : String)
  | claimNumbered (stem : String) (counter : Nat)
  | reserve (name : String)
  | release (name : String)

/-- A call of one of several tables; a name that is claimed avoids those of an enclosing table. -/
structure NameTurn where
  table : Nat
  outer : Option Nat
  call : NameCall

/-- What became of a name of a table. -/
structure NameEvent where
  table : Nat
  name : String
  taken : Bool

/-- Several name tables with what became of their names, the latest first. -/
structure NameTables where
  tables : Nat → NameTable
  events : List NameEvent

namespace NameTables

variable {reserved : Nat → List String} {turns : List NameTurn} {T : NameTurn} {s : NameTables}
  {i : Nat} {name other : String}

/-- Tables in which only reserved words are taken. -/
def start (reserved : Nat → List String) : NameTables := ⟨fun i => ⟨reserved i⟩, []⟩

/-- A table becomes another, and so does one of its names. -/
def put (s : NameTables) (i : Nat) (t : NameTable) (name : String) (taken : Bool) : NameTables where
  tables := Function.update s.tables i t
  events := ⟨i, name, taken⟩ :: s.events

/-- The table whose names a turn avoids. -/
def enclosing (s : NameTables) (T : NameTurn) : NameTable :=
  match T.outer with
  | none => .empty
  | some o => s.tables o

/-- A turn: the name that it gives out, and the tables after it. -/
def turn (s : NameTables) (T : NameTurn) : Option String × NameTables :=
  let t := s.tables T.table
  match T.call with
  | .claim preferred =>
    let (name, t') := t.claim (s.enclosing T) preferred
    (some name, s.put T.table t' name true)
  | .claimNumbered stem counter =>
    let (name, _, t') := t.claimNumbered (s.enclosing T) stem counter
    (some name, s.put T.table t' name true)
  | .reserve name => (none, s.put T.table (t.reserve name) name true)
  | .release name => (none, s.put T.table (t.release name) name false)

/-- One turn after another. -/
def run (reserved : Nat → List String) (turns : List NameTurn) : NameTables :=
  turns.foldl (fun s T => (s.turn T).2) (start reserved)

/-- The last that became of a name in a table. -/
def last? (s : NameTables) (i : Nat) (name : String) : Option NameEvent :=
  s.events.find? fun e => e.table = i ∧ e.name = name

/-- A table holds a name if it was taken last; a reserved word is held until something becomes of
it. -/
def Holds (reserved : Nat → List String) (s : NameTables) (i : Nat) (name : String) : Prop :=
  match s.last? i name with
  | some e => e.taken = true
  | none => name ∈ reserved i

/-- What a table has taken is what it holds. -/
def Knows (reserved : Nat → List String) (s : NameTables) : Prop :=
  ∀ i name, (s.tables i).isUsed name = true ↔ s.Holds reserved i name

theorem knows_start : (start reserved).Knows reserved := fun _ _ => List.contains_iff_mem

theorem tables_put (i : Nat) (t : NameTable) (name : String) (taken : Bool) :
    (s.put i t name taken).tables = Function.update s.tables i t := rfl

theorem last?_put_self {t : NameTable} {taken : Bool} :
    (s.put i t name taken).last? i name = some ⟨i, name, taken⟩ :=
  List.find?_cons_of_pos (by simp)

theorem last?_put_other {t : NameTable} {taken : Bool} {j : Nat} (h : ¬ (j = i ∧ other = name)) :
    (s.put i t name taken).last? j other = s.last? j other :=
  List.find?_cons_of_neg (by
    rw [decide_eq_true_eq]
    rintro ⟨rfl, rfl⟩
    exact h ⟨rfl, rfl⟩)

/-- Only one name of one table changes. -/
theorem Knows.put (h : s.Knows reserved) {t : NameTable} {taken : Bool}
    (self : t.isUsed name = taken)
    (others : ∀ other, other ≠ name → t.isUsed other = (s.tables i).isUsed other) :
    (s.put i t name taken).Knows reserved := by
  intro j other
  by_cases same : j = i ∧ other = name
  · obtain ⟨rfl, rfl⟩ := same
    rw [Holds, last?_put_self, tables_put, Function.update_self, self]
  · have kept : ((s.put i t name taken).tables j).isUsed other = (s.tables j).isUsed other := by
      by_cases hj : j = i
      · subst hj
        rw [tables_put, Function.update_self]
        exact others other fun hn => same ⟨rfl, hn⟩
      · rw [tables_put, Function.update_of_ne hj]
    rw [Holds, last?_put_other same, kept]
    exact h j other

theorem isUsed_reserve_of_ne (t : NameTable) (h : other ≠ name) :
    (t.reserve name).isUsed other = t.isUsed other := by
  rw [NameTable.isUsed_reserve, beq_eq_false_iff_ne.2 h, Bool.false_or]

theorem Knows.reserve (h : s.Knows reserved) (i : Nat) (name : String) :
    (s.put i ((s.tables i).reserve name) name true).Knows reserved :=
  h.put (by rw [NameTable.isUsed_reserve, beq_self_eq_true, Bool.true_or])
    fun _ => isUsed_reserve_of_ne _

/-- Every turn takes or releases one name, which its table learns. -/
theorem Knows.turn (h : s.Knows reserved) (T : NameTurn) : (s.turn T).2.Knows reserved := by
  unfold NameTables.turn
  cases T.call with
  | claim preferred => exact h.reserve T.table _
  | claimNumbered stem counter => exact h.reserve T.table _
  | reserve name => exact h.reserve T.table name
  | release name =>
    refine h.put ?_ fun other hne => ?_
    · rw [NameTable.isUsed_release, bne_self_eq_false, Bool.false_and]
    · rw [NameTable.isUsed_release, bne_iff_ne.2 hne, Bool.true_and]

/-- After any history, the names that a table has taken are those that it holds. -/
theorem isUsed_run (reserved : Nat → List String) (turns : List NameTurn) :
    (run reserved turns).Knows reserved := by
  unfold run
  generalize hs : start reserved = s
  have h : s.Knows reserved := hs ▸ knows_start
  clear hs
  induction turns generalizing s with
  | nil => exact h
  | cons T turns ih => exact ih _ (h.turn T)

end NameTables

/-! ### The names of a history -/

namespace NameTable

variable {taken : String → Bool} {candidate : Nat → String}

theorem le_firstFree (fuel n : Nat) : n ≤ firstFree taken candidate fuel n := by
  induction fuel generalizing n with
  | zero => exact Nat.le_refl _
  | succ fuel ih =>
    rw [firstFree]
    split
    · exact Nat.le_of_succ_le (ih (n + 1))
    · exact Nat.le_refl _

/-- The search goes on from the first candidate only where that is taken. -/
theorem firstFree_eq_zero_iff {fuel : Nat} :
    firstFree taken candidate (fuel + 1) 0 = 0 ↔ taken (candidate 0) = false := by
  rw [firstFree]
  split
  · next first =>
    have later : 1 ≤ firstFree taken candidate fuel (0 + 1) := le_firstFree fuel 1
    rw [first]
    exact ⟨fun h => by omega, fun h => nomatch h⟩
  · next first => exact ⟨fun _ => Bool.eq_false_iff.2 first, fun _ => rfl⟩

end NameTable

open Native (isIdentifier)
open Name

/-- What a name looks like that a call gives out where `held` says which names are avoided. -/
def NameCall.Forms (held : String → Prop) (name : String) : NameCall → Prop
  | claim preferred => isIdentifier name.toList = true ∧
      (IsDoubled name.toList ↔ (∀ c ∈ preferred.toList, c.isAlphanum = false) ∧ held "_")
  | claimNumbered stem _ => (isIdentifier name.toList = true ↔ isIdentifier stem.toList = true) ∧
      (IsDoubled name.toList ↔ IsDoubled stem.toList)
  | reserve _ | release _ => False

/-- A name that is given out in a turn avoids those of a table. -/
def NameTurn.Avoids (T : NameTurn) (i : Nat) : Prop := i = T.table ∨ T.outer = some i

namespace NameTables

variable {reserved : Nat → List String} {s : NameTables} {T : NameTurn} {name : String}

theorem isTaken_iff (h : s.Knows reserved) : (s.tables T.table).isTaken (s.enclosing T) name = true ↔
    ∃ i, T.Avoids i ∧ s.Holds reserved i name := by
  have outer : (s.enclosing T).isUsed name = true ↔ ∃ o, T.outer = some o ∧ s.Holds reserved o name := by
    unfold enclosing
    cases T.outer with
    | none => exact ⟨fun h => (nomatch h), fun ⟨_, h, _⟩ => (nomatch h)⟩
    | some o =>
      rw [h o name]
      exact ⟨fun held => ⟨o, rfl, held⟩, fun ⟨_, ho, held⟩ => Option.some.inj ho ▸ held⟩
  rw [NameTable.isTaken, Bool.or_eq_true, h T.table name, outer]
  constructor
  · rintro (held | ⟨o, ho, held⟩)
    · exact ⟨_, .inl rfl, held⟩
    · exact ⟨o, .inr ho, held⟩
  · rintro ⟨i, rfl | ho, held⟩
    · exact .inl held
    · exact .inr ⟨i, ho, held⟩

/-- A claimed name is an identifier; two underscores stand in front of it if a number was put behind
a single one. -/
theorem claim_forms (t outer : NameTable) {held : String → Prop}
    (hh : ∀ name, t.isTaken outer name = true ↔ held name) (preferred : String) :
    (NameCall.claim preferred).Forms held (t.claim outer preferred).1 := by
  have base : (sanitize preferred).toList = sanitizeChars preferred.toList := String.toList_ofList
  have blank : sanitize preferred = "_" ↔ ∀ c ∈ preferred.toList, c.isAlphanum = false := by
    rw [← sanitizeChars_eq_underscore, ← base]
    exact ⟨fun h => h ▸ rfl, fun h => String.toList_injective h⟩
  have word := isIdentifier_sanitizeChars preferred.toList
  have single := not_isDoubled_sanitizeChars preferred.toList
  have first : NameTable.firstFree (t.isTaken outer) (NameTable.suffixed (sanitize preferred))
      (t.candidates outer) 0 = 0 ↔ ¬ held (sanitize preferred) := by
    rw [NameTable.candidates, NameTable.firstFree_eq_zero_iff, ← hh, Bool.not_eq_true]
    rfl
  show (NameCall.claim preferred).Forms held (NameTable.suffixed (sanitize preferred) _)
  generalize NameTable.firstFree _ _ _ _ = n at first
  cases n with
  | zero =>
    refine ⟨?_, ⟨fun h => absurd h ?_, fun ⟨h, underscore⟩ => ?_⟩⟩
    · rwa [NameTable.suffixed, base]
    · rwa [NameTable.suffixed, base]
    · exact absurd (blank.2 h ▸ underscore) (first.1 rfl)
  | succ n =>
    have taken : held (sanitize preferred) := by
      by_contra free
      exact absurd (first.2 free) (Nat.succ_ne_zero n)
    obtain ⟨d, ds, digits, -, digit⟩ := exists_digits (n + 1)
    have text : (NameTable.suffixed (sanitize preferred) (n + 1)).toList =
        sanitizeChars preferred.toList ++ '_' :: (d :: ds) := by
      rw [NameTable.suffixed, String.toList_append, String.toList_append, base, digits,
        List.append_assoc]
      rfl
    have nonempty := sanitizeChars_ne_nil preferred.toList
    have tail : ('_' :: d :: ds).all isWordChar = true := by rw [List.all_cons, digit]; rfl
    unfold NameCall.Forms
    rw [text, isIdentifier_append nonempty tail, isDoubled_append nonempty,
      sanitizeChars_eq_underscore]
    refine ⟨word, ⟨fun h => ?_, fun h => .inr ⟨h.1, rfl⟩⟩⟩
    have h := (h.resolve_left single).1
    exact ⟨h, blank.2 h ▸ taken⟩

/-- A number behind a stem leaves the front of the stem as it is. -/
theorem claimNumbered_forms (t outer : NameTable) (held : String → Prop) (stem : String)
    (counter : Nat) :
    (NameCall.claimNumbered stem counter).Forms held (t.claimNumbered outer stem counter).1 := by
  show (NameCall.claimNumbered stem counter).Forms held (stem ++ toString _)
  generalize NameTable.firstFree _ _ _ _ = n
  obtain ⟨d, ds, digits, digit, word⟩ := exists_digits n
  have underscore : d ≠ '_' := by
    rintro rfl
    cases digit
  unfold NameCall.Forms
  rw [String.toList_append, digits]
  by_cases hne : stem.toList = []
  · rw [hne, List.nil_append]
    constructor
    · simp [isIdentifier, digit, hne]
    · simp [IsDoubled, underscore, hne]
  · rw [isIdentifier_append hne word, isDoubled_append hne]
    exact ⟨Iff.rfl, ⟨fun h => h.resolve_right fun h => underscore h.2, .inl⟩⟩

/-- After any history of calls, a name that is given out is held neither by its own table nor by the
enclosing one, so it is no reserved word that was not released, and the form of the name follows from
the call. -/
theorem run_gives {turns : List NameTurn} (h : ((run reserved turns).turn T).1 = some name) :
    (∀ i, T.Avoids i → ¬ (run reserved turns).Holds reserved i name) ∧
      T.call.Forms (fun name => ∃ i, T.Avoids i ∧ (run reserved turns).Holds reserved i name)
        name := by
  have knows := isUsed_run reserved turns
  generalize run reserved turns = s at h knows
  have taken : ∀ name, (s.tables T.table).isTaken (s.enclosing T) name = true ↔
      ∃ i, T.Avoids i ∧ s.Holds reserved i name := fun _ => isTaken_iff knows
  have free : (s.tables T.table).isTaken (s.enclosing T) name = false →
      ∀ i, T.Avoids i → ¬ s.Holds reserved i name := fun free i hi held =>
    Bool.eq_false_iff.1 free ((taken name).2 ⟨i, hi, held⟩)
  unfold turn at h
  cases hc : T.call with
  | claim preferred =>
    rw [hc] at h
    obtain rfl := Option.some.inj h
    exact ⟨free (NameTable.claim_free _ _ _), claim_forms _ _ taken preferred⟩
  | claimNumbered stem counter =>
    rw [hc] at h
    obtain rfl := Option.some.inj h
    exact ⟨free (NameTable.claimNumbered_free _ _ _ _), claimNumbered_forms _ _ _ stem counter⟩
  | reserve name =>
    rw [hc] at h
    cases h
  | release name =>
    rw [hc] at h
    cases h

/-- A numbered name, a released name and a claim beside an enclosing table. -/
def paletteTurns : List NameTurn :=
  [⟨0, some 1, .claim "color"⟩, ⟨0, none, .claimNumbered "nodeVar" 0⟩, ⟨0, none, .release "color"⟩,
    ⟨0, some 1, .claim "color"⟩]

theorem palette_gives :
    ((run (fun _ => ["time"]) paletteTurns).turn ⟨0, some 1, .claim "time"⟩).1 = some "time_1" ∧
      ¬ (run (fun _ => ["time"]) paletteTurns).Holds (fun _ => ["time"]) 1 "time_1" :=
  have gives : ((run (fun _ => ["time"]) paletteTurns).turn ⟨0, some 1, .claim "time"⟩).1 =
      some "time_1" := by decide +kernel
  ⟨gives, (run_gives gives).1 1 (.inr rfl)⟩

/-- Nothing is left of an empty text but an underscore; behind it, the number that tells the second
name from the first makes the two underscores that the clean-up dropped. -/
theorem second_underscore_doubled :
    ((run (fun _ => []) [⟨0, none, .claim ""⟩]).turn ⟨0, none, .claim ""⟩).1 = some "__1" ∧
      IsDoubled "__1".toList :=
  ⟨by decide +kernel, ['1'], by decide⟩

end NameTables

end ShaderGraph
