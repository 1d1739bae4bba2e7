import ShaderGraph.Text.Scan

/-!
# File paths

Texts whose pieces stand between slashes.

* `Path.names` are the pieces that are not empty, which are followed one after the other to
  find a file.
* `Path.parent?` is the path without its last part, written as before. An empty piece or a
  single point is no part of its own, unless the point comes first.
* `Path.ancestors` are the path, the one without its last part, and so on.
* `Path.stem?` is the last part without its extension.
* `Path.join` appends a part.
-/

namespace ShaderGraph.Path

/-- The pieces between the slashes of a text. -/
def pieces (cs : List Char) : List (List Char) := Text.splitOn (· == '/') cs

/-- Whether a path starts at the root. -/
def isAbsolute (path : String) : Bool := path.toList.head? = some '/'

/-- Whether nothing but a directory can be meant. -/
def endsInSlash (path : String) : Bool := path.toList.getLast? = some '/'

/-- The names that a path is made of. -/
def names (path : String) : List String :=
  ((pieces path.toList).filter fun piece => !piece.isEmpty).map String.ofList

/-- The slash or the point that a path starts with, and what follows it. -/
def cutFront : List Char → List Char × List Char
  | '/' :: cs => (['/'], cs)
  | ['.'] => (['.'], [])
  | '.' :: '/' :: cs => (['.'], '/' :: cs)
  | cs => ([], cs)

/-- Whether a piece is no part of a path. -/
def isIdle (piece : List Char) : Bool := piece = [] || piece = ['.']

/-- The pieces up to the last one that is a part. -/
def dropIdle (ps : List (List Char)) : List (List Char) := (ps.reverse.dropWhile isIdle).reverse

/-- The path without its last part; the root and the empty path have none. -/
def parent? (path : String) : Option String :=
  let (front, body) := cutFront path.toList
  match (dropIdle (pieces body)).reverse with
  | [] => if front = ['.'] then some "" else none
  | _ :: rest => some (String.ofList (front ++ ['/'].intercalate (dropIdle rest.reverse)))

/-- A path and what is left of it when parts are dropped, `fuel` times at most. -/
def ancestorsIn : Nat → String → List String
  | 0, path => [path]
  | fuel + 1, path =>
    match parent? path with
    | some parent => path :: ancestorsIn fuel parent
    | none => [path]

/-- A path and what is left of it when one part after the other is dropped. There are no more
parts than characters. -/
def ancestors (path : String) : List String := ancestorsIn path.length path

/-- A name without its extension, which starts at the last point unless nothing stands in
front of that. -/
def dropExtension (name : List Char) : List Char :=
  match Text.cutAt (· == '.') name.reverse with
  | some (_, []) | none => name
  | some (_, c :: front) => (c :: front).reverse

/-- The last part of a path without its extension. -/
def stem? (path : String) : Option String :=
  match (dropIdle (pieces (cutFront path.toList).2)).getLast? with
  | none | some ['.', '.'] => none
  | some name => some (String.ofList (dropExtension name))

/-- A path one part longer. -/
def join (path part : String) : String :=
  if path = "" || endsInSlash path then path ++ part else path ++ "/" ++ part

/-! ### Small facts -/

theorem head?_ancestorsIn (fuel : Nat) (path : String) :
    (ancestorsIn fuel path).head? = some path := by
  cases fuel with
  | zero => rfl
  | succ fuel =>
    unfold ancestorsIn
    split <;> rfl

@[simp] theorem head?_ancestors (path : String) : (ancestors path).head? = some path :=
  head?_ancestorsIn _ _

end ShaderGraph.Path
