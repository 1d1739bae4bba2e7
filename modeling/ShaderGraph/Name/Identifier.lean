/-!
# Identifiers

Turning any text into an identifier that both dialects accept.

* `sanitize` keeps ASCII letters, digits and underscores and replaces every other character
  by an underscore. The result is not empty, does not start with a digit and does not start
  with two underscores, which both dialects reserve.
* `lowerCamel` and `upperCamel` join the parts between underscores by capital letters.
-/

namespace ShaderGraph.Name

/-- Whether `c` may stand in an identifier. -/
def isWordChar (c : Char) : Bool := c.isAlphanum || c == '_'

/-- Drops underscores in front until at most one is left. -/
def dropDoubled : List Char → List Char
  | '_' :: '_' :: rest => dropDoubled ('_' :: rest)
  | cs => cs

/-- Puts an underscore in front of a text that is empty or starts with a digit. -/
def guardFront : List Char → List Char
  | [] => ['_']
  | c :: cs => if c.isDigit then '_' :: c :: cs else c :: cs

/-- An identifier made of the characters of a text. -/
def sanitizeChars (cs : List Char) : List Char :=
  dropDoubled (guardFront (cs.map fun c => if isWordChar c then c else '_'))

/-- An identifier made of the characters of a text. -/
def sanitize (s : String) : String := String.ofList (sanitizeChars s.toList)

/-- Drops underscores; the character after one becomes a capital, as does the first one when
`capital` holds. -/
def camelTail (capital : Bool) : List Char → List Char
  | [] => []
  | c :: cs =>
    if c = '_' then camelTail true cs
    else (if capital then c.toUpper else c) :: camelTail false cs

/-- The identifier of a text with its parts joined by capitals, starting small. -/
def lowerCamelChars (cs : List Char) : List Char :=
  match sanitizeChars cs with
  | [] => []
  | c :: rest => c.toLower :: camelTail false rest

/-- The identifier of a text with its parts joined by capitals, starting small. -/
def lowerCamel (s : String) : String := String.ofList (lowerCamelChars s.toList)

/-- The identifier of a text with its parts joined by capitals, starting with one. -/
def upperCamel (s : String) : String :=
  match lowerCamelChars s.toList with
  | [] => ""
  | c :: rest => String.ofList (c.toUpper :: rest)

/-! ### Small facts -/

theorem dropDoubled_ne_nil {cs : List Char} (h : cs ≠ []) : dropDoubled cs ≠ [] := by
  fun_induction dropDoubled cs with
  | case1 rest ih => exact ih (by simp)
  | case2 cs => exact h

theorem sanitizeChars_ne_nil (cs : List Char) : sanitizeChars cs ≠ [] := by
  apply dropDoubled_ne_nil
  unfold guardFront
  split
  · simp
  · split <;> simp

theorem dropDoubled_not_doubled (cs rest : List Char) : dropDoubled cs ≠ '_' :: '_' :: rest := by
  fun_induction dropDoubled cs with
  | case1 r ih => exact ih
  | case2 cs h => intro e; exact h rest e

end ShaderGraph.Name
