import ShaderGraph.Decimal.Style

/-!
# JSON values

* `Json` is a JSON value; an object keeps its members as they were written, repeated names
  included. A part that has the form of a value but stands for none is `unreadable`.
* `Json.isReadable` says that no part is.
* `Json.canonical` sorts the members of every object by name; of a repeated name the last
  member stays.
* `Json.compact` and `Json.pretty` are the texts of a value without blanks and with an
  indentation of two.
-/

namespace ShaderGraph

/-- A JSON number: a whole number that fits 64 bits, or a floating-point number. -/
inductive Json.Number where
  | int (value : Int)
  | double (value : Float)
  | single (value : Float32)

/-- A JSON value. -/
inductive Json where
  | null
  | bool (value : Bool)
  | number (value : Json.Number)
  | string (value : String)
  | array (items : List Json)
  | object (members : List (String × Json))
  /-- A number without a finite value, a string with half of a character, or an array or object
  that is nested too deep. -/
  | unreadable

namespace Json

instance : Inhabited Json := ⟨.null⟩

/-- A natural number as JSON. -/
def nat (n : Nat) : Json := .number (.int n)

/-- An optional value as JSON; a missing one is `null`. -/
def ofOption {α : Type} (f : α → Json) : Option α → Json
  | some a => f a
  | none => .null

/-- The items of a list as JSON. -/
def ofList {α : Type} (f : α → Json) (xs : List α) : Json := .array (xs.map f)

/-- The value of the last member with the given name. -/
def get? (name : String) : Json → Option Json
  | .object members => members.reverse.lookup name
  | _ => none

mutual

/-- Whether every part stands for a value. -/
def isReadable : Json → Bool
  | .array items => areReadable items
  | .object members => membersAreReadable members
  | .unreadable => false
  | .null | .bool _ | .number _ | .string _ => true

/-- Whether every item stands for a value. -/
def areReadable : List Json → Bool
  | [] => true
  | v :: rest => isReadable v && areReadable rest

/-- Whether every member stands for a value. -/
def membersAreReadable : List (String × Json) → Bool
  | [] => true
  | (_, v) :: rest => isReadable v && membersAreReadable rest

end

/-! ### Sorted members -/

/-- Puts a member at its place among sorted ones; a member of the same name gives way. -/
def insertMember (m : String × Json) : List (String × Json) → List (String × Json)
  | [] => [m]
  | n :: rest =>
    if m.1 < n.1 then m :: n :: rest
    else if m.1 = n.1 then m :: rest
    else n :: insertMember m rest

/-- Sorts members by name; of a repeated name the last member stays. -/
def sortMembers (members : List (String × Json)) : List (String × Json) :=
  members.foldl (fun sorted m => insertMember m sorted) []

mutual

/-- The value with the members of every object sorted and told apart by name. -/
def canonical : Json → Json
  | .array items => .array (canonicalItems items)
  | .object members => .object (sortMembers (canonicalMembers members))
  | v => v

/-- `canonical` on each item. -/
def canonicalItems : List Json → List Json
  | [] => []
  | v :: rest => canonical v :: canonicalItems rest

/-- `canonical` on the value of each member. -/
def canonicalMembers : List (String × Json) → List (String × Json)
  | [] => []
  | (k, v) :: rest => (k, canonical v) :: canonicalMembers rest

end

/-! ### Text -/

/-- A double has at most 16 digits before its point and at most four zeros after it; its exponent
always has a sign. -/
def doubleStyle : Decimal.Style := ⟨.even, some (-5), some 16, true, true⟩

/-- A single has at most 13 digits before its point and at most five zeros after it; its exponent
always has a sign. -/
def singleStyle : Decimal.Style := ⟨.even, some (-6), some 13, true, true⟩

/-- The text of a number; one that is not finite has none and is written `null`. -/
def Number.text : Number → String
  | .int i => toString i
  | .double x => (doubleStyle.float? x).getD "null"
  | .single x => (singleStyle.float32? x).getD "null"

/-- A control character as an escape of four hexadecimal digits. -/
def escapeControl (c : Char) : List Char :=
  let digits := Nat.toDigits 16 c.toNat
  '\\' :: 'u' :: List.replicate (4 - digits.length) '0' ++ digits

/-- A character inside quotes. -/
def escapeChar (c : Char) : List Char :=
  if c = '"' then ['\\', '"']
  else if c = '\\' then ['\\', '\\']
  else if c = '\n' then ['\\', 'n']
  else if c = '\r' then ['\\', 'r']
  else if c = '\t' then ['\\', 't']
  else if c = Char.ofNat 8 then ['\\', 'b']
  else if c = Char.ofNat 12 then ['\\', 'f']
  else if c.toNat < 0x20 then escapeControl c
  else [c]

/-- A text in quotes. -/
def quote (s : String) : String :=
  String.ofList ('"' :: s.toList.flatMap escapeChar ++ ['"'])

mutual

/-- The text of a value without blanks. -/
def compact : Json → String
  | .null | .unreadable => "null"
  | .bool b => if b then "true" else "false"
  | .number n => n.text
  | .string s => quote s
  | .array items => "[" ++ ",".intercalate (compactItems items) ++ "]"
  | .object members => "\x7b" ++ ",".intercalate (compactMembers members) ++ "\x7d"

/-- The texts of the items. -/
def compactItems : List Json → List String
  | [] => []
  | v :: rest => compact v :: compactItems rest

/-- The texts of the members. -/
def compactMembers : List (String × Json) → List String
  | [] => []
  | (k, v) :: rest => (quote k ++ ":" ++ compact v) :: compactMembers rest

end

/-- A new line `depth` steps of two blanks deep. -/
def newLine (depth : Nat) : String := "\n" ++ String.ofList (List.replicate (2 * depth) ' ')

/-- Texts between brackets, each on its own line one step deeper. -/
def layOut (depth : Nat) (opening closing : String) : List String → String
  | [] => opening ++ closing
  | texts =>
    opening ++ newLine (depth + 1) ++ ("," ++ newLine (depth + 1)).intercalate texts ++
      newLine depth ++ closing

mutual

/-- The text of a value that starts `depth` steps deep, one item or member to a line. -/
def prettyAt (depth : Nat) : Json → String
  | .array items => layOut depth "[" "]" (prettyItems (depth + 1) items)
  | .object members => layOut depth "\x7b" "\x7d" (prettyMembers (depth + 1) members)
  | .null | .unreadable => "null"
  | .bool b => if b then "true" else "false"
  | .number n => n.text
  | .string s => quote s

/-- The texts of the items, each on its own line. -/
def prettyItems (depth : Nat) : List Json → List String
  | [] => []
  | v :: rest => prettyAt depth v :: prettyItems depth rest

/-- The texts of the members, each on its own line. -/
def prettyMembers (depth : Nat) : List (String × Json) → List String
  | [] => []
  | (k, v) :: rest => (quote k ++ ": " ++ prettyAt depth v) :: prettyMembers depth rest

end

/-- The text of a value, one item or member to a line. -/
def pretty (v : Json) : String := prettyAt 0 v

end Json

end ShaderGraph
