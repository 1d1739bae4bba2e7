import ShaderGraph.CommandLine.Run

/-!
# The command line tool

Runs the tool on the files of the machine. Faults are reported on the error output, outermost
first.
-/

namespace ShaderGraph.CommandLine

/-- An action whose error is a reason. -/
def attempt {α : Type} (action : IO α) : IO (Except String α) := do
  match ← action.toBaseIO with
  | .ok a => return .ok a
  | .error e => return .error (toString e)

/-- The files of the machine. -/
def files : Disk IO where
  read path := attempt (IO.FS.readFile path)
  makeDirectory path := if path = "" then return .ok () else attempt (IO.FS.createDirAll path)
  write path text := attempt (IO.FS.writeFile path text)

/-- The name of the tool. -/
def toolName : String := "shadergraph"

/-- The report of a failed run. -/
def report : List String → String
  | [] => Topic.text toolName .tool
  | [fault] => "Error: " ++ fault ++ "\n"
  | fault :: causes =>
    "Error: " ++ fault ++ "\n\nCaused by:\n    " ++ "\n    ".intercalate causes ++ "\n"

end ShaderGraph.CommandLine

open ShaderGraph.CommandLine in
/-- Runs the tool with the arguments that follow its name. -/
def main (args : List String) : IO UInt32 := do
  let outcome ← ShaderGraph.CommandLine.run files toolName args
  IO.print outcome.printed
  unless outcome.code = 0 do IO.eprint (report outcome.chain)
  return outcome.code
