import ShaderGraph.Json.Number

/-!
# Reading JSON

`Json.readForm?` reads a text that has the form of one JSON value with blanks around it, and
`Json.read?` one that also stands for a value in all of its parts.

* Arrays and objects may be nested `nestingBound` deep.
* An escape that names half of a character outside the basic plane must be followed by its
  other half.

Every reader takes a list of characters and returns what it has not read. The recursion is
bounded by the length of the text, which each step shortens.
-/

namespace ShaderGraph.Json

/-- How deep arrays and objects may be nested. -/
def nestingBound : Nat := 127

/-- The four characters that may stand between tokens. -/
def isSeparator (c : Char) : Bool := c == ' ' || c == '\t' || c == '\n' || c == '\r'

/-- The text without the blanks in front. -/
def skipBlanks (cs : List Char) : List Char := cs.dropWhile isSeparator

/-- The value of a hexadecimal digit. -/
def hexValue? (c : Char) : Option Nat :=
  if c.isDigit then some (c.toNat - '0'.toNat)
  else if 'a' ≤ c && c ≤ 'f' then some (c.toNat - 'a'.toNat + 10)
  else if 'A' ≤ c && c ≤ 'F' then some (c.toNat - 'A'.toNat + 10)
  else none

/-- Four hexadecimal digits. -/
def readUnit? : List Char → Option (Nat × List Char)
  | a :: b :: c :: d :: rest =>
    match hexValue? a, hexValue? b, hexValue? c, hexValue? d with
    | some a, some b, some c, some d => some (((a * 16 + b) * 16 + c) * 16 + d, rest)
    | _, _, _, _ => none
  | _ => none

/-- The character outside the basic plane whose first half is `unit`, if the text goes on with
its other half. -/
def readOtherHalf? (unit : Nat) : List Char → Option (Char × List Char)
  | '\\' :: 'u' :: rest =>
    match readUnit? rest with
    | none => none
    | some (low, rest) =>
      if 0xdc00 ≤ low && low ≤ 0xdfff then
        some (Char.ofNat (0x10000 + (unit - 0xd800) * 0x400 + (low - 0xdc00)), rest)
      else none
  | _ => none

/-- The character that the digits of an escape name, together with the escape behind it where
they name the first half of one. Half of a character alone is none. -/
def readEscapedUnit? (cs : List Char) : Option (Option Char × List Char) :=
  match readUnit? cs with
  | none => none
  | some (unit, rest) =>
    if unit < 0xd800 || 0xdfff < unit then some (some (Char.ofNat unit), rest)
    -- a second half without the first
    else if 0xdc00 ≤ unit then some (none, rest)
    else match readOtherHalf? unit rest with
      | some (c, rest) => some (some c, rest)
      | none => some (none, rest)

/-- The character that the letter after a backslash stands for. -/
def simpleEscape? : Char → Option Char
  | '"' => some '"'
  | '\\' => some '\\'
  | '/' => some '/'
  | 'b' => some (Char.ofNat 8)
  | 'f' => some (Char.ofNat 12)
  | 'n' => some '\n'
  | 'r' => some '\r'
  | 't' => some '\t'
  | _ => none

/-- Puts a character in front of a string. Where either is none, so is the result. -/
def consChar? (c : Option Char) (r : Option (List Char) × List Char) :
    Option (List Char) × List Char :=
  match c, r.1 with
  | some c, some cs => (some (c :: cs), r.2)
  | _, _ => (none, r.2)

/-- Reads up to the closing quote. The string is none if it has half of a character. -/
def readQuoted? : Nat → List Char → Option (Option (List Char) × List Char)
  | 0, _ => none
  | _, [] => none
  | fuel + 1, c :: cs =>
    if c = '"' then some (some [], cs)
    else if c = '\\' then
      match cs with
      | [] => none
      | 'u' :: cs =>
        match readEscapedUnit? cs with
        | none => none
        | some (d, cs) => (readQuoted? fuel cs).map (consChar? d)
      | e :: cs =>
        match simpleEscape? e with
        | none => none
        | some d => (readQuoted? fuel cs).map (consChar? (some d))
    else if c.toNat < 0x20 then none
    else (readQuoted? fuel cs).map (consChar? (some c))

/-- Reads a string after its opening quote. -/
def readString? (cs : List Char) : Option (Option String × List Char) :=
  (readQuoted? (cs.length + 1) cs).map fun r => (r.1.map String.ofList, r.2)

/-- The object with the given members; without a name of each there is none. -/
def objectOf (members : List (Option String × Json)) : Json :=
  match members.mapM fun m => m.1.map fun name => (name, m.2) with
  | some members => .object members
  | none => .unreadable

/-- An array or object where `depth` levels are left. -/
def atDepth (depth : Nat) (v : Json) : Json := if depth = 0 then .unreadable else v

mutual

/-- Reads a value where arrays and objects may be nested `depth` deep. -/
def readValue? : Nat → Nat → List Char → Option (Json × List Char)
  | 0, _, _ => none
  | fuel + 1, depth, cs =>
    match skipBlanks cs with
    | 'n' :: rest => (Text.dropFront? ['u', 'l', 'l'] rest).map fun r => (.null, r)
    | 't' :: rest => (Text.dropFront? ['r', 'u', 'e'] rest).map fun r => (.bool true, r)
    | 'f' :: rest => (Text.dropFront? ['a', 'l', 's', 'e'] rest).map fun r => (.bool false, r)
    | '"' :: rest => (readString? rest).map fun r => ((r.1.map .string).getD .unreadable, r.2)
    | '[' :: rest =>
      match skipBlanks rest with
      | ']' :: rest => some (atDepth depth (.array []), rest)
      | rest => (readItems? fuel (depth - 1) rest).map fun r => (atDepth depth (.array r.1), r.2)
    | '\x7b' :: rest =>
      match skipBlanks rest with
      | '\x7d' :: rest => some (atDepth depth (.object []), rest)
      | rest =>
        (readMembers? fuel (depth - 1) rest).map fun r => (atDepth depth (objectOf r.1), r.2)
    | rest => (readNumber? rest).map fun r => ((r.1.map .number).getD .unreadable, r.2)

/-- Reads the items of an array up to its closing bracket. -/
def readItems? : Nat → Nat → List Char → Option (List Json × List Char)
  | 0, _, _ => none
  | fuel + 1, depth, cs =>
    match readValue? fuel depth cs with
    | none => none
    | some (v, cs) =>
      match skipBlanks cs with
      | ',' :: rest => (readItems? fuel depth rest).map fun r => (v :: r.1, r.2)
      | ']' :: rest => some ([v], rest)
      | _ => none

/-- Reads the members of an object up to its closing brace. -/
def readMembers? : Nat → Nat → List Char → Option (List (Option String × Json) × List Char)
  | 0, _, _ => none
  | fuel + 1, depth, cs =>
    match skipBlanks cs with
    | '"' :: rest =>
      match readString? rest with
      | none => none
      | some (name, rest) =>
        match skipBlanks rest with
        | ':' :: rest =>
          match readValue? fuel depth rest with
          | none => none
          | some (v, rest) =>
            match skipBlanks rest with
            | ',' :: rest => (readMembers? fuel depth rest).map fun r => ((name, v) :: r.1, r.2)
            | '\x7d' :: rest => some ([(name, v)], rest)
            | _ => none
        | _ => none
    | _ => none

end

/-- The value that a text has the form of. -/
def readForm? (s : String) : Option Json :=
  let cs := s.toList
  match readValue? (2 * cs.length + 2) nestingBound cs with
  | some (v, rest) => if (skipBlanks rest).isEmpty then some v else none
  | none => none

/-- The value that a text stands for. -/
def read? (s : String) : Option Json := (readForm? s).filter isReadable

end ShaderGraph.Json
