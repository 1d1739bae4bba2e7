import ShaderGraph.Dialect.Spelling
import ShaderGraph.Name.Identifier
import ShaderGraph.Native.Comment
import ShaderGraph.Native.Declaration

/-!
# Reading native functions

`Declaration.read` reads the first function of a source in its dialect.

* `parameterList` cuts a source at its first parenthesis and at the one that closes it, and
  `body` cuts out the first block in braces.
* `readGlsl` reads a function in GLSL. What precedes it stays with it as its preamble.
* `readWgsl` reads a function in WGSL, and `wgslType?` a type; blanks inside a type do not matter.
* `extractWgsl?` cuts a function with a given name out of a source in WGSL as it stands.
-/

namespace ShaderGraph.Native

/-! ### Cutting -/

/-- What stands before the first opening parenthesis, and what stands after it. -/
def beforeParameters? (gs : List Glyph) : Option (List Glyph × List Glyph) :=
  Text.cutAt (fun g => g.shown == '(') gs

/-- Behind the opening parenthesis: what stands inside the list and what stands after it. -/
def parameterList (d : Dialect) (gs : List Glyph) :
    Except DialectError (List Glyph × List Glyph) :=
  match Text.takeBracket Glyph.shown '(' ')' 1 gs with
  | some r => .ok r
  | none => .error (.unbalancedParentheses d)

/-- What stands before the body, and the body with its braces. -/
def body (gs : List Glyph) : Except DialectError (List Glyph × String) :=
  match Text.cutAt (fun g => g.shown == '\x7b') gs with
  | none => .error .noBody
  | some (between, rest) =>
    match Text.takeBracket Glyph.shown '\x7b' '\x7d' 1 rest with
    | none => .error .unbalancedBraces
    | some (inside, _) => .ok (between, String.ofList ('\x7b' :: written inside ++ ['\x7d']))

/-! ### GLSL -/

/-- Words that fix a precision and mean nothing else. -/
def precisions : List String := ["highp", "mediump", "lowp"]

/-- A type by name; textures cannot be passed. -/
def glslType (name : String) : Except DialectError ValueType :=
  match ValueType.ofName? name with
  | some .texture | none => .error (.type .glsl name)
  | some t => .ok t

/-- The text without the blanks in front of opening square brackets, one blank for each. -/
def joinBefore : List Char → List Char
  | ' ' :: '[' :: cs => '[' :: joinBefore cs
  | c :: cs => c :: joinBefore cs
  | [] => []

/-- The text without the blanks behind opening square brackets, one blank for each. -/
def joinBehind : List Char → List Char
  | '[' :: ' ' :: cs => '[' :: joinBehind cs
  | c :: cs => c :: joinBehind cs
  | [] => []

/-- The text without the closing square brackets at its end. -/
def dropClosing (cs : List Char) : List Char :=
  (cs.reverse.dropWhile (· == ']')).reverse

/-- A word and the length in square brackets behind it. -/
def arrayLength (word : List Char) : Except DialectError (List Char × Option UInt32) :=
  match Text.cutAt (· == '[') word with
  | none => .ok (word, none)
  | some (stem, rest) =>
    match Text.readWord32? (Text.trim (dropClosing rest)) with
    | some n => .ok (stem, some n)
    | none => .error (.arrayLength (String.ofList word))

/-- The qualifiers of a parameter and its other words. -/
structure Qualified where
  passing : Passing
  isConst : Bool
  words : List (List Char)

/-- Takes a word of a parameter; of several ways of passing the last one counts. -/
def Qualified.take (q : Qualified) (word : List Char) : Qualified :=
  match String.ofList word with
  | "const" => { q with isConst := true }
  | "in" => { q with passing := .input }
  | "out" => { q with passing := .output }
  | "inout" => { q with passing := .inputOutput }
  | w => if precisions.contains w then q else { q with words := q.words ++ [word] }

/-- Reads a parameter. -/
def glslParameter (text : List Char) : Except DialectError Parameter :=
  let q := (Text.words (joinBehind (joinBefore text))).foldl Qualified.take ⟨.input, false, []⟩
  match q.words with
  | [type, name] => do
    let (type, typeCount) ← arrayLength type
    let (name, nameCount) ← arrayLength name
    let type ← glslType (String.ofList type)
    -- the length behind the name wins over the one behind the type
    return ⟨String.ofList name, type, q.passing, q.isConst, nameCount.or typeCount⟩
  | _ => .error (.parameter .glsl (String.ofList (Text.trim text)))

/-- Reads the parameters. -/
def glslParameters (text : List Char) : Except DialectError (List Parameter) :=
  let text := Text.trim text
  if text.isEmpty || text = ['v', 'o', 'i', 'd'] then .ok []
  else (Text.splitOn (· == ',') text).mapM glslParameter

/-- Whether a word is an identifier. -/
def isIdentifier : List Char → Bool
  | [] => false
  | c :: cs => Name.isWordChar c && !c.isDigit && cs.all Name.isWordChar

/-- The last word of a text that is given back to front, and what stands before it, back to
front as well. -/
def lastWord? (back : List Glyph) : Option (List Char × List Glyph) :=
  match back.dropWhile Glyph.isBlank with
  | [] => none
  | gs =>
    some (blanked (gs.takeWhile fun g => !g.isBlank).reverse, gs.dropWhile fun g => !g.isBlank)

/-- The text without the precision at its end, if there is one. -/
def dropPrecision (back : List Glyph) : List Glyph :=
  match lastWord? back with
  | some (word, rest) => if precisions.contains (String.ofList word) then rest else back
  | none => back

/-- What stands before the parameters: the preamble, the name of the result type and the name
of the function. -/
def glslHeader (header : List Glyph) : Except DialectError (String × String × String) :=
  match lastWord? header.reverse with
  | none => .error .noSignature
  | some (name, rest) =>
    match lastWord? rest with
    | none => .error .noSignature
    | some (result, rest) =>
      if isIdentifier name then
        .ok (String.ofList (Text.trim (written (dropPrecision rest).reverse)),
          String.ofList result, String.ofList name)
      else .error (.invalidName .glsl (String.ofList name))

/-- Reads the first function of a source. -/
def readGlsl (source : String) : Except DialectError Declaration :=
  match beforeParameters? (glyphs source.toList) with
  | none => .error (.noDeclaration .glsl)
  | some (header, rest) => do
    let (preamble, result, name) ← glslHeader header
    let result ← glslType result
    let (inside, rest) ← parameterList .glsl rest
    let inputs ← glslParameters (blanked inside)
    let (_, body) ← body rest
    return ⟨name, inputs, result, .glsl preamble, body⟩

/-! ### WGSL: types -/

/-- A scalar type. -/
def wgslScalar? (text : String) : Option ScalarKind :=
  [ScalarKind.float, .int, .uint, .bool].find? fun k => Dialect.wgslScalar k = text

/-- What stands between a word at the start and a character at the end. -/
def between? (word : String) (closing : Char) (cs : List Char) : Option (List Char) :=
  (Text.dropFront? word.toList cs).bind (Text.dropBack? [closing])

/-- A vector type with its scalar type in angle brackets. The outer result tells whether the
text has this form. -/
def wgslVector? (w : Width) (cs : List Char) : Option (Option ValueType) :=
  (between? s!"vec{w.toNat}<" '>' cs).map fun inner =>
    (wgslScalar? (String.ofList inner)).map fun k => .vector k w

/-- A matrix type. Only square matrices of floats exist. The outer result tells whether the
text starts like a matrix of this shape. -/
def wgslMatrix? (columns rows : Width) (cs : List Char) : Option (Option ValueType) :=
  (Text.dropFront? s!"mat{columns.toNat}x{rows.toNat}".toList cs).map fun rest =>
    if columns = rows ∧ (rest = ['f'] ∨ rest = "<f32>".toList) then some (.matrix columns)
    else none

/-- A vector or matrix type whose scalar type is written out. -/
def wgslGeneric? (cs : List Char) : Option (Option ValueType) :=
  [Width.two, .three, .four].findSome? fun n =>
    (wgslVector? n cs).or ([Width.two, .three, .four].findSome? fun m => wgslMatrix? n m cs)

/-- The short names of vector types. -/
def wgslShortNames : List String :=
  ["vec2f", "vec3f", "vec4f", "vec2i", "vec3i", "vec4i", "vec2u", "vec3u", "vec4u"]

/-- A type that is no array, without blanks. -/
def wgslPlainType? (cs : List Char) : Option ValueType :=
  match wgslGeneric? cs with
  | some t => t
  | none =>
    let name := String.ofList cs
    match wgslScalar? name with
    | some k => some (.scalar k)
    | none => if wgslShortNames.contains name then ValueType.ofName? name else none

/-- The length of an array, with or without the mark of its scalar type. -/
def wgslCount? (cs : List Char) : Option UInt32 :=
  Text.readWord32? (cs.reverse.dropWhile fun c => c == 'u' || c == 'i').reverse

/-- Reads a type without blanks; `depth` bounds how deep arrays are nested. -/
def wgslTypeIn? : Nat → List Char → Option ValueType
  | 0, _ => none
  | depth + 1, cs =>
    match between? "array<" '>' cs with
    | none => wgslPlainType? cs
    | some inner =>
      match Text.splitTopLevel inner with
      | element :: count :: _ =>
        match wgslTypeIn? depth element, wgslCount? count with
        | some t, some n => some (.array t n)
        | _, _ => none
      | _ => none

/-- The text without blanks. -/
def compact (cs : List Char) : List Char := cs.filter fun c => !Text.isBlank c

/-- Reads a type. Each level of nesting takes a character at least. -/
def wgslType? (cs : List Char) : Option ValueType := wgslTypeIn? (cs.length + 1) (compact cs)

/-! ### WGSL: parameters -/

/-- The text behind an attribute and its arguments; both start after the at sign. -/
def afterAttribute (cs : List Char) : List Char :=
  let rest := cs.dropWhile Name.isWordChar
  match Text.trimLeft rest with
  | '(' :: arguments =>
    match Text.takeBracket id '(' ')' 1 arguments with
    | some (_, rest) => Text.trimLeft rest
    | none => []
  | rest => rest

/-- The text without the attributes in front; `fuel` bounds how many there are. -/
def dropAttributesIn : Nat → List Char → List Char
  | fuel + 1, '@' :: cs => dropAttributesIn fuel (afterAttribute cs)
  | _, cs => cs

/-- The trimmed text without the attributes in front. Each takes a character at least. -/
def dropAttributes (cs : List Char) : List Char := dropAttributesIn cs.length (Text.trim cs)

/-- How a parameter of this type is passed, and the type of the argument. -/
def wgslPassing (type : List Char) : Except DialectError (Passing × List Char) :=
  match between? "ptr<" '>' (compact type) with
  | none => .ok (.input, compact type)
  | some inner =>
    match Text.splitTopLevel inner with
    | _ :: pointee :: _ => .ok (.inputOutput, pointee)
    | _ => .error (.pointer (String.ofList type))

/-- Reads a parameter: what it is, and its type as written. -/
def wgslParameter (text : List Char) : Except DialectError (Parameter × String) :=
  let text := dropAttributes text
  match Text.cutAt (· == ':') text with
  | none => .error (.parameter .wgsl (String.ofList text))
  | some (name, type) => do
    let name := String.ofList (Text.trim name)
    let type := Text.trim type
    let (passing, value) ← wgslPassing type
    match wgslType? value with
    | none => .error (.type .wgsl (String.ofList type))
    | some (.array element n) =>
      return (⟨name, element, passing, false, some n⟩, String.ofList type)
    | some t => return (⟨name, t, passing, false, none⟩, String.ofList type)

/-! ### WGSL: functions -/

/-- Whether a character ends the keyword of a function. -/
def endsKeyword (c : Char) : Bool :=
  c == ' ' || c == '\t' || c == '\n' || c == '\r' || c == Char.ofNat 12

/-- What follows the keyword of the first function; `before` tells whether the text goes on
from a word. -/
def afterKeyword? (before : Bool) : List Glyph → Option (List Glyph)
  | [] => none
  | g :: gs =>
    let here := match gs with
      | h :: k :: _ => !before && g.shown == 'f' && h.shown == 'n' && endsKeyword k.shown
      | _ => false
    if here then some (gs.drop 1) else afterKeyword? (Name.isWordChar g.shown) gs

/-- Reads what stands between the parameters and the body: the result type, and how it is
written. -/
def wgslResult (between : List Char) : Except DialectError (ValueType × Option String) :=
  match Text.dropFront? ['-', '>'] between with
  | some type =>
    let type := Text.trim (dropAttributes type)
    match wgslType? type with
    | some t => .ok (t, some (String.ofList type))
    | none => .error (.returnType (String.ofList type))
  | none =>
    if between.isEmpty then .ok (.void, none)
    else .error (.afterParameters (String.ofList between))

/-- Reads the first function of a source. -/
def readWgsl (source : String) : Except DialectError Declaration :=
  match afterKeyword? false (glyphs source.toList) with
  | none => .error (.noDeclaration .wgsl)
  | some rest =>
    match beforeParameters? rest with
    | none => .error .noParameterList
    | some (header, rest) => do
      let name := Text.trim (blanked header)
      if name.isEmpty || name.any Text.isBlank then
        throw (.invalidName .wgsl (String.ofList name))
      let (inside, rest) ← parameterList .wgsl rest
      let inputs ← (Text.splitTopLevel (blanked inside)).mapM wgslParameter
      let (between, body) ← body rest
      let (result, resultText) ← wgslResult (Text.trim (blanked between))
      return ⟨String.ofList name, inputs.map Prod.fst, result,
        .wgsl (inputs.map Prod.snd) resultText, body⟩

/-- The text of the first function with the given name, up to the end of its body. -/
def extractWgsl? (source name : String) : Option String :=
  let front := ("fn " ++ name ++ "(").toList
  match Text.afterWord? front source.toList with
  | none => none
  | some rest =>
    match Text.cutAt (· == '\x7b') (front ++ rest) with
    | none => none
    | some (signature, rest) =>
      (Text.takeBracket id '\x7b' '\x7d' 1 rest).map fun r =>
        String.ofList (signature ++ '\x7b' :: r.1 ++ ['\x7d'])

/-! ### Both dialects -/

/-- Reads the first function of a source. -/
def Declaration.read (d : Dialect) (source : String) : Except DialectError Declaration :=
  match d with
  | .glsl => readGlsl source
  | .wgsl => readWgsl source

end ShaderGraph.Native
