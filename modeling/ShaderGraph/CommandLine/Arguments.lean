import ShaderGraph.Stage
import ShaderGraph.Text.Scan

/-!
# Arguments

What the tool is asked to do. `Request.read` reads the arguments that follow its name.

* An option is written `--name value`, `--name=value`, `-n value`, `-nvalue` or `-n=value`; short
  flags can be run together. What follows `--` is no option.
* Each option and each flag is given once at most. A value does not start with `-`, unless it is
  that sign alone.
* Arguments are read from the left: help is given unless something before it does not fit. What
  is missing is found at the end.
-/

namespace ShaderGraph.CommandLine

/-! ### Requests -/

/-- A graph to compile. -/
structure Job where
  input : String
  /-- The dialect, where it is not the one that the document asks for. -/
  dialect : Option Dialect
  verbose : Bool
deriving DecidableEq, Repr

/-- Where the results go. -/
structure Target where
  outputDir : Option String
  stateFile : Option String
deriving DecidableEq, Repr

/-- What help can be about. -/
inductive Topic where
  | tool
  | build
  | check
  | help
deriving DecidableEq, Repr

/-- What the tool is asked to do. -/
inductive Request where
  /-- Compiles a graph and writes its programs. -/
  | build (job : Job) (target : Target) (validate : Bool)
  /-- Compiles a graph and writes nothing. -/
  | check (job : Job)
  | help (topic : Topic)
deriving DecidableEq, Repr

/-! ### Commands -/

/-- An option or a flag. -/
structure Switch where
  short : Option Char
  long : String
  /-- What stands for the value of an option in the help; a flag has no value. -/
  value : Option String
  /-- What the help says about it. -/
  about : String
deriving DecidableEq, Repr

/-- A command that takes a file. -/
structure Command where
  name : String
  about : String
  /-- What the help says about the file. -/
  fileAbout : String
  options : List Switch
deriving DecidableEq, Repr

namespace Switch

/-- The choice of the dialect. -/
def dialect (about : String) : Switch := ⟨some 'd', "dialect", some "DIALECT", about⟩

/-- The flag that asks for more messages. -/
def verbose (about : String) : Switch := ⟨some 'v', "verbose", none, about⟩

/-- The flag that asks for help. -/
def help : Switch := ⟨some 'h', "help", none, "Print help"⟩

end Switch

/-- The dialects to choose from, for the help. -/
def possibleDialects : String := "[possible values: wgsl, glsl]"

/-- The command that writes programs. -/
def Command.build : Command where
  name := "build"
  about := "Compile a graph document and write one shader file per stage"
  fileAbout := "Graph document (JSON)"
  options :=
    [.dialect ("Override the dialect named in the document's options " ++ possibleDialects),
     ⟨some 'o', "output-dir", some "DIR",
      "Directory for generated shaders (defaults to the input's directory)"⟩,
     ⟨none, "state-json", some "FILE",
      "Also write the build state (bindings, uniforms, varyings, update lists) as JSON"⟩,
     ⟨none, "validate", none, "Run naga over every generated stage"⟩,
     .verbose "Log at debug level",
     .help]

/-- The command that writes nothing. -/
def Command.check : Command where
  name := "check"
  about := "Compile a graph document without writing output"
  fileAbout := ""
  options := [.dialect possibleDialects, .verbose "", .help]

/-! ### Reading -/

/-- What the arguments of a command consist of. -/
structure Given where
  file : Option String
  options : List (String × String)
  flags : List String
deriving DecidableEq, Repr

/-- The arguments do not fit, or help is asked for. -/
inductive Interruption where
  | misuse
  | help
deriving DecidableEq, Repr

namespace Given

/-- Whether an option can have a value: none is empty, and the dialect is one that there is. -/
def accepts (name value : String) : Bool :=
  value ≠ "" && (name ≠ "dialect" || (Dialect.ofName? value).isSome)

/-- Adds an option, unless it is there. -/
def addOption (g : Given) (name value : String) : Except Interruption Given :=
  if accepts name value && (g.options.lookup name).isNone then
    .ok { g with options := g.options ++ [(name, value)] }
  else .error .misuse

/-- Adds a flag, unless it is there. -/
def addFlag (g : Given) (name : String) : Except Interruption Given :=
  if name = "help" then .error .help
  else if g.flags.contains name then .error .misuse
  else .ok { g with flags := g.flags ++ [name] }

/-- Adds the file, unless there is one. -/
def addFile (g : Given) (name : String) : Except Interruption Given :=
  if name = "" || g.file.isSome then .error .misuse else .ok { g with file := some name }

end Given

/-- What an argument that starts with `-` asks for. -/
inductive Reading where
  | given (g : Given)
  /-- The next argument is the value of an option. -/
  | awaits (g : Given) (option : String)

/-- Reads short options that are run together. -/
def readShort (options : List Switch) (g : Given) : List Char → Except Interruption Reading
  | [] => .ok (.given g)
  | c :: cs =>
    match options.find? fun o => o.short = some c with
    | none => .error .misuse
    | some o =>
      if o.value.isNone then
        match g.addFlag o.long with
        | .ok g => readShort options g cs
        | .error e => .error e
      else match cs with
        | [] => .ok (.awaits g o.long)
        | '=' :: value => (g.addOption o.long (String.ofList value)).map .given
        | value => (g.addOption o.long (String.ofList value)).map .given

/-- Reads a long option. -/
def readLong (options : List Switch) (g : Given) (cs : List Char) : Except Interruption Reading :=
  let (name, value) := match Text.cutAt (· == '=') cs with
    | some (name, value) => (String.ofList name, some (String.ofList value))
    | none => (String.ofList cs, none)
  match options.find? fun o => o.long = name with
  | none => .error .misuse
  | some o =>
    match o.value, value with
    | none, none => (g.addFlag name).map .given
    | none, some _ => .error .misuse
    | some _, none => .ok (.awaits g name)
    | some _, some value => (g.addOption name value).map .given

/-- Whether an argument can only be an option. -/
def isOption (arg : String) : Bool :=
  match arg.toList with
  | '-' :: _ :: _ => true
  | _ => false

/-- Reads arguments; `awaited` is the option whose value comes next. -/
def readArguments (options : List Switch) :
    Option String → Given → List String → Except Interruption Given
  | none, g, [] => .ok g
  | some _, _, [] => .error .misuse
  | some name, g, arg :: rest =>
    if isOption arg then .error .misuse
    else match g.addOption name arg with
      | .ok g => readArguments options none g rest
      | .error e => .error e
  | none, g, "--" :: rest => rest.foldlM Given.addFile g
  | none, g, arg :: rest =>
    let reading := match arg.toList with
      | '-' :: '-' :: cs => readLong options g cs
      | '-' :: c :: cs => readShort options g (c :: cs)
      | _ => (g.addFile arg).map .given
    match reading with
    | .error e => .error e
    | .ok (.given g) => readArguments options none g rest
    | .ok (.awaits g name) => readArguments options (some name) g rest

namespace Given

/-- The graph to compile, if there is one. -/
def job? (g : Given) : Option Job :=
  g.file.map fun input =>
    ⟨input, (g.options.lookup "dialect").bind Dialect.ofName?, g.flags.contains "verbose"⟩

/-- Where the results go. -/
def target (g : Given) : Target := ⟨g.options.lookup "output-dir", g.options.lookup "state-json"⟩

end Given

/-- What the arguments of a command ask for. -/
def Command.read (c : Command) (topic : Topic) (request : Given → Job → Request)
    (args : List String) : Option Request :=
  match readArguments c.options none ⟨none, [], []⟩ args with
  | .ok g => g.job?.map (request g)
  | .error .help => some (.help topic)
  | .error .misuse => none

/-- What help is asked for by the names of commands. -/
def Topic.read : List String → Option Topic
  | [] => some .tool
  | ["build"] => some .build
  | ["check"] => some .check
  | ["help"] => some .help
  | _ => none

/-- Whether an argument in front of all commands asks for help. -/
def asksForHelp (arg : String) : Bool :=
  match arg.toList with
  | '-' :: 'h' :: _ => true
  | _ => arg = "--help"

/-- What the arguments ask for; arguments that do not fit ask for nothing. -/
def Request.read : List String → Option Request
  | [] => none
  | "build" :: rest =>
    Command.build.read .build
      (fun g job => .build job g.target (g.flags.contains "validate")) rest
  | "check" :: rest => Command.check.read .check (fun _ job => .check job) rest
  | "help" :: names => (Topic.read names).map .help
  | arg :: _ => if asksForHelp arg then some (.help .tool) else none

end ShaderGraph.CommandLine
