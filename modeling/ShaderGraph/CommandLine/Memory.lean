import ShaderGraph.CommandLine.Run

/-!
# Runs in memory

Files and directories that are held in memory, so that a run of the tool can be followed from
its start to its end.

* A `Location` is where something lies. A path is followed name by name (`Memory.locate`), and
  each step starts at a directory that is there, a step to `.` or `..` too.
* `Memory.makeDirectories` makes a directory after those around it.
* `Memory.write` writes a file into a directory that is there.
* The run takes place in the directory `home`, which no path leads to by its name.
-/

namespace ShaderGraph.CommandLine

/-- The names that lead from the root to a file or a directory. -/
abbrev Location := List String

/-- Files and directories. -/
structure Memory where
  files : List (Location × String)
  directories : List Location

/-- Why something cannot be done at a path. -/
inductive Obstacle where
  /-- Nothing is there, or no directory around it. -/
  | missing
  /-- Something is there already. -/
  | occupied
  /-- The path leads through a file. -/
  | notDirectory
  /-- A directory is there. -/
  | isDirectory
  /-- The path or a name in it is too long. -/
  | tooLong
deriving DecidableEq, Repr

/-- The wording of an obstacle. -/
def Obstacle.reason : Obstacle → String
  | .missing => "No such file or directory (os error 2)"
  | .occupied => "File exists (os error 17)"
  | .notDirectory => "Not a directory (os error 20)"
  | .isDirectory => "Is a directory (os error 21)"
  | .tooLong => "File name too long (os error 36)"

namespace Memory

/-- The directory of the run. Its own name is empty, and no name in a path is. -/
def home : Location := ["tmp", ""]

/-- The directory of the run and a device that takes whatever is written to it. -/
def empty : Memory := ⟨[(["dev", "null"], "")], [[], ["dev"], ["tmp"], home]⟩

/-- The greatest size of a name, in bytes. -/
def nameBound : Nat := 255

/-- The greatest size of a path, in bytes. -/
def pathBound : Nat := 4095

variable (s : Memory)

/-! ### What is there -/

/-- Whether there is a directory at a location. -/
def hasDirectory (l : Location) : Bool := s.directories.contains l

/-- Whether there is a file at a location. -/
def hasFile (l : Location) : Bool := (s.files.lookup l).isSome

/-- Goes on from a location by one name of a path. -/
def enter (l : Location) (name : String) : Except Obstacle Location :=
  if !s.hasDirectory l then .error (if s.hasFile l then .notDirectory else .missing)
  else if name = "." then .ok l
  else if name = ".." then .ok l.dropLast
  else if nameBound < name.utf8ByteSize then .error .tooLong
  else .ok (l ++ [name])

/-- The location that a path leads to; something need not be there. -/
def locate (path : String) : Except Obstacle Location :=
  if pathBound < path.utf8ByteSize then .error .tooLong
  else (Path.names path).foldlM s.enter (if Path.isAbsolute path then [] else home)

/-- Whether a path leads to a directory. -/
def leadsToDirectory (path : String) : Bool :=
  match s.locate path with
  | .ok l => s.hasDirectory l
  | .error _ => false

/-- The text of a file. -/
def read (path : String) : Except Obstacle String :=
  match s.locate path with
  | .error o => .error o
  | .ok l =>
    match s.files.lookup l with
    | none => .error (if s.hasDirectory l then .isDirectory else .missing)
    | some text => if Path.endsInSlash path then .error .notDirectory else .ok text

/-! ### Changes -/

/-- Adds a file, whatever was there before. -/
def put (l : Location) (text : String) : Memory :=
  { s with files := s.files.filter (fun f => f.1 ≠ l) ++ [(l, text)] }

/-- Takes a file away. -/
def remove (path : String) : Memory :=
  match s.locate path with
  | .ok l => { s with files := s.files.filter fun f => f.1 ≠ l }
  | .error _ => s

/-- Writes a file. -/
def write (path text : String) : Except Obstacle Memory :=
  match s.locate path with
  | .error o => .error o
  | .ok l =>
    if Path.endsInSlash path || s.hasDirectory l then .error .isDirectory else .ok (s.put l text)

/-- Makes a directory where the one around it is there. -/
def makeDirectory (path : String) : Except Obstacle Memory :=
  match s.locate path with
  | .error o => .error o
  | .ok l =>
    if s.hasDirectory l || s.hasFile l then .error .occupied
    else .ok { s with directories := s.directories ++ [l] }

/-- Makes a directory unless the path leads to one. -/
def ensureDirectory (path : String) : Except Obstacle Memory :=
  match s.makeDirectory path with
  | .ok s => .ok s
  | .error o => if s.leadsToDirectory path then .ok s else .error o

end Memory

/-- Makes the first of some directories, each of which lies in the one that follows it, after
those around it that are missing. -/
def Memory.makeChain : List String → Memory → Except Obstacle Memory
  | [], _ => .error .missing
  | path :: around, s =>
    if path = "" then .ok s
    else match s.ensureDirectory path with
      | .error .missing =>
        match Memory.makeChain around s with
        | .ok s => s.ensureDirectory path
        | .error o => .error o
      | result => result

namespace Memory

variable (s : Memory)

/-- Makes a directory after those around it, unless it is there. -/
def makeDirectories (path : String) : Except Obstacle Memory :=
  makeChain (Path.ancestors path) s

/-! ### Runs -/

/-- The outcome of a change, which is made unless there is an obstacle. -/
def change (step : Memory → Except Obstacle Memory) : StateM Memory (Except String Unit) := do
  match step (← get) with
  | .error o => return .error o.reason
  | .ok s =>
    set s
    return .ok ()

/-- The files in memory as the place of a run. -/
def disk : Disk (StateM Memory) where
  read path := return ((← get).read path).mapError Obstacle.reason
  makeDirectory path := change fun s => s.makeDirectories path
  write path text := change fun s => s.write path text

/-- The memory at the start of a run: a file, and the directories that lead to it. -/
def withFile (path text : String) : Memory :=
  let s := match empty.makeDirectories ((Path.parent? path).getD "") with
    | .ok s => s
    | .error _ => empty
  match s.write path text with
  | .ok s => s
  | .error _ => s

/-- The files in the directory of the run, under their paths from there. -/
def listing : List (String × String) :=
  s.files.filterMap fun f =>
    if f.1.take home.length = home then some ("/".intercalate (f.1.drop home.length), f.2)
    else none

end Memory

end ShaderGraph.CommandLine
