import ShaderGraph.CommandLine.Arguments

/-!
# Help

What the tool says about its commands and options.

* `Topic.text` is the help on a topic for a tool of a given name.
* `table` aligns the second column of two.
-/

namespace ShaderGraph.CommandLine

/-- An option as it is written. -/
def Switch.usage (o : Switch) : String :=
  (match o.short with
    | some c => s!"-{c}, "
    | none => "    ") ++
  "--" ++ o.long ++
  match o.value with
    | some value => s!" <{value}>"
    | none => ""

/-- Lines of two columns, two blanks apart. -/
def table (rows : List (String × String)) : List String :=
  let width := rows.foldl (fun w r => max w r.1.length) 0
  rows.map fun r =>
    "  " ++ r.1 ++ String.ofList (List.replicate (width + 2 - r.1.length) ' ') ++ r.2

/-- A heading with the lines below it, after an empty line. -/
def headed (heading : String) (lines : List String) : List String := "" :: (heading ++ ":") :: lines

/-- The lines about some options. -/
def optionLines (options : List Switch) : List String :=
  headed "Options" (table (options.map fun o => (o.usage, o.about)))

/-- The help on a command. -/
def Command.helpLines (tool : String) (c : Command) : List String :=
  [c.about, "", s!"Usage: {tool} {c.name} [OPTIONS] <FILE>"] ++
    headed "Arguments" (table [("<FILE>", c.fileAbout)]) ++ optionLines c.options

/-- What the help command is for. -/
def helpAbout : String := "Print this message or the help of the given subcommand(s)"

/-- The help on the tool. -/
def toolHelpLines (tool : String) : List String :=
  ["Compile JSON node graphs to WGSL or GLSL shaders", "", s!"Usage: {tool} <COMMAND>"] ++
    headed "Commands"
      (table ([Command.build, .check].map (fun c => (c.name, c.about)) ++ [("help", helpAbout)])) ++
    optionLines [Switch.help]

/-- The help on the help command. -/
def helpHelpLines (tool : String) : List String :=
  [helpAbout, "", s!"Usage: {tool} help [COMMAND]..."] ++
    headed "Arguments" (table [("[COMMAND]...", "Print help for the subcommand(s)")])

/-- The lines of the help on a topic. -/
def Topic.lines (tool : String) : Topic → List String
  | .tool => toolHelpLines tool
  | .build => Command.build.helpLines tool
  | .check => Command.check.helpLines tool
  | .help => helpHelpLines tool

/-- The help on a topic. -/
def Topic.text (tool : String) (t : Topic) : String :=
  String.join ((t.lines tool).map fun line => line ++ "\n")

end ShaderGraph.CommandLine
