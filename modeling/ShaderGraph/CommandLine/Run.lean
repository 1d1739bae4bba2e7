import ShaderGraph.Artifact.Json
import ShaderGraph.Build.Run
import ShaderGraph.CommandLine.Help
import ShaderGraph.Document.Lowering
import ShaderGraph.Text.Path

/-!
# Runs of the tool

`run` does what the arguments ask for in a place where files can be read and written, and says
what is to be printed.

* A build writes one file for each program, named after the document, the stage and the dialect,
  and the record of the build if it is asked for.
* A run that fails reports the causes, outermost first.
* The place is a `Disk`, so that a run can be followed without files.
-/

namespace ShaderGraph.CommandLine

/-- A place where files can be read and written. What cannot be done has a reason. -/
structure Disk (m : Type → Type) where
  read : String → m (Except String String)
  /-- Makes a directory, with those around it, unless it is there. -/
  makeDirectory : String → m (Except String Unit)
  write : String → String → m (Except String Unit)

/-- Why a run fails. -/
inductive Fault where
  | unread (path reason : String)
  | noDocument (path : String)
  | noGraph (path : String) (error : DocumentError)
  | refused (path : String) (error : BuildError)
  | exhausted (path : String)
  | noDirectory (path reason : String)
  | unwritten (path reason : String)

/-- The report of a fault, outermost first. -/
def Fault.chain : Fault → List String
  | unread path reason => [s!"failed to read graph json at {path}", reason]
  | noDocument path => [s!"failed to parse graph json at {path}"]
  | noGraph path e => s!"failed to lower {path}" :: e.chain
  | refused path e => [s!"failed to compile {path}", e.display]
  | exhausted path => [s!"failed to compile {path}", "the graph is nested too deep"]
  | noDirectory path reason => [s!"failed to create output dir {path}", reason]
  | unwritten path reason => [s!"failed to write {path}", reason]

/-- How a run ends. -/
structure Outcome where
  /-- The exit code. -/
  code : UInt32
  /-- What is printed. -/
  printed : String
  /-- The causes of a failure, outermost first. -/
  chain : List String
deriving DecidableEq, Repr

/-- How a run ends that does what it was asked for. -/
def Outcome.done (printed : String) : Outcome := ⟨0, printed, []⟩

/-- How a run ends that fails. -/
def Outcome.failed (f : Fault) : Outcome := ⟨1, "", f.chain⟩

/-- How a run ends whose arguments do not fit. -/
def Outcome.misused : Outcome := ⟨2, "", []⟩

/-- Compiles the text of a document; the programs are checked if that is asked for here or in the
document. -/
def compile (host : Host) (job : Job) (validate : Bool) (text : String) : Except Fault Artifact :=
  match Document.read? text with
  | none => .error (.noDocument job.input)
  | some d =>
    match d.lower with
    | .error e => .error (.noGraph job.input e)
    | .ok l =>
      let options := { l.options with
        dialect := job.dialect.getD l.options.dialect
        validate := l.options.validate || validate }
      match build l.graph l.request options host with
      | .ok a => .ok a
      | .error (.refused e) => .error (.refused job.input e)
      | .error .exhausted => .error (.exhausted job.input)

/-- The directory that the programs are written to: the one that was asked for, else that of
the document. -/
def directory (job : Job) (target : Target) : String :=
  (target.outputDir.or (Path.parent? job.input)).getD "."

/-- The files of the programs, and their texts. -/
def programFiles (job : Job) (dir : String) (a : Artifact) : List (String × String) :=
  let stem := (Path.stem? job.input).getD "graph"
  Stage.all.filterMap fun stage =>
    (a.source? stage).map fun source =>
      (Path.join dir (stem ++ "." ++ stage.name ++ "." ++ a.dialect.name), source)

/-- The file of the record of the build, if it is asked for, and its text. -/
def stateFiles (target : Target) (a : Artifact) : List (String × String) :=
  (target.stateFile.map fun path => (path, a.toJson.pretty)).toList

section

variable {m : Type → Type} [Monad m] (disk : Disk m) (host : Host)

/-- Reads and compiles a document. -/
def compileFile (job : Job) (validate : Bool) : m (Except Fault Artifact) := do
  match ← disk.read job.input with
  | .error reason => return .error (.unread job.input reason)
  | .ok text => return compile host job validate text

/-- Writes files until one cannot be written. -/
def writeFiles : List (String × String) → m (Option Fault)
  | [] => return none
  | (path, text) :: rest => do
    match ← disk.write path text with
    | .error reason => return some (.unwritten path reason)
    | .ok () => writeFiles rest

/-- Writes what a build hands over. -/
def writeArtifact (job : Job) (target : Target) (a : Artifact) : m (Option Fault) := do
  let dir := directory job target
  match ← disk.makeDirectory dir with
  | .error reason => return some (.noDirectory dir reason)
  | .ok () => writeFiles disk (programFiles job dir a ++ stateFiles target a)

/-- Does what is asked for; `tool` is the name under which the tool runs. -/
def Request.run (tool : String) : Request → m Outcome
  | .help topic => return .done (topic.text tool)
  | .check job => do
    match ← compileFile disk host job true with
    | .error f => return .failed f
    | .ok _ => return .done (job.input ++ ": ok\n")
  | .build job target validate => do
    match ← compileFile disk host job validate with
    | .error f => return .failed f
    | .ok a =>
      match ← writeArtifact disk job target a with
      | some f => return .failed f
      | none => return .done ""

/-- Does what the arguments ask for. -/
def run (tool : String) (args : List String) (host : Host := .plain) : m Outcome :=
  match Request.read args with
  | some request => request.run disk host tool
  | none => return .misused

end

end ShaderGraph.CommandLine
