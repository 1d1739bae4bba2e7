import ShaderGraph.Json.Value
import ShaderGraph.OrderedMap

/-!
# Reading records from JSON

A record has fields with fixed names. It is written as an object, or as an array of the values
in the order of the fields.

* Members with other names do not matter, whatever they hold. A field that is written twice
  spoils the record.
* `Record.field?` is a field that must be there, `Record.fieldOr?` one with a default.
* The other functions read single values; a value of another form is none.
-/

namespace ShaderGraph.Json

/-! ### Single values -/

/-- A text. -/
def asText? : Json → Option String
  | .string s => some s
  | _ => none

/-- A truth value. -/
def asBool? : Json → Option Bool
  | .bool b => some b
  | _ => none

/-- A whole number below a bound. -/
def asNatBelow? (bound : Nat) : Json → Option Nat
  | .number (.int i) => if 0 ≤ i ∧ i < bound then some i.toNat else none
  | _ => none

/-- A word of 32 bits. -/
def asWord? (v : Json) : Option UInt32 := (v.asNatBelow? UInt32.size).map UInt32.ofNat

/-- A number as a double; truth values count as one and zero. -/
def asFloat? : Json → Option Float
  | .number (.int i) => some (Float.ofInt i)
  | .number (.double x) => some x
  | .number (.single x) => some x.toFloat
  | .bool b => some (if b then 1 else 0)
  | _ => none

/-- A list. -/
def asList? {α : Type} (read : Json → Option α) : Json → Option (List α)
  | .array items => items.mapM read
  | _ => none

/-- A map from names; of a repeated name the last value stays. -/
def asMap? {α : Type} (read : Json → Option α) : Json → Option (OrderedMap String α)
  | .object members =>
    (members.mapM fun m => (read m.2).map fun a => (m.1, a)).map OrderedMap.ofList
  | _ => none

/-- A value or `null`. -/
def asOption? {α : Type} (read : Json → Option α) : Json → Option (Option α)
  | .null => some none
  | v => (read v).map some

/-- One of several named choices: its name, or an object with `null` under its name. -/
def asChoice? {α : Type} (ofName? : String → Option α) : Json → Option α
  | .string s => ofName? s
  | .object [(s, .null)] => ofName? s
  | _ => none

/-- A value that may be anything, with its members sorted. -/
def asValue? (v : Json) : Option Json := if v.isReadable then some v.canonical else none

/-! ### Records -/

/-- The fields of a record that were written. -/
structure Record where
  fields : List (String × Json)

/-- The record with the given fields. An array must have at least `least` items. -/
def asRecord? (names : List String) (least : Nat) : Json → Option Record
  | .object members =>
    let fields := members.filter fun m => names.contains m.1
    if (fields.map Prod.fst).Nodup then some ⟨fields⟩ else none
  | .array items =>
    if least ≤ items.length ∧ items.length ≤ names.length then some ⟨names.zip items⟩ else none
  | _ => none

namespace Record

variable {α : Type}

/-- A field that must be there. -/
def field? (r : Record) (name : String) (read : Json → Option α) : Option α :=
  (r.fields.lookup name).bind read

/-- A field that may be missing. -/
def fieldOr? (r : Record) (name : String) (default : α) (read : Json → Option α) : Option α :=
  match r.fields.lookup name with
  | some v => read v
  | none => some default

end Record

end ShaderGraph.Json
