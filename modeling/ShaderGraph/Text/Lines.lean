import ShaderGraph.Text.Blank

/-!
# Lines and their indentation

* `lines` splits a text at its newlines; a newline at the very end closes the last line and
  opens none.
* `indentLine` moves one line to the right by steps of four spaces and leaves a blank line
  empty.
* `indentSource` indents every line of a text after dropping the blanks at its end.
-/

namespace ShaderGraph.Text

/-- The lines of a text. -/
def lines (cs : List Char) : List (List Char) :=
  let pieces := splitOn (· == '\n') cs
  if pieces.getLast? = some [] then pieces.dropLast else pieces

/-- The blanks in front of a line that is `levels` steps deep. -/
def indentation (levels : Nat) : String :=
  String.ofList (List.replicate (4 * levels) ' ')

/-- One line `levels` steps to the right; a blank line becomes empty. -/
def indentLine (levels : Nat) (line : String) : String :=
  if line.toList.all isBlank then "" else indentation levels ++ line

/-- Every line `levels` steps to the right. -/
def indentLines (levels : Nat) (ls : List String) : List String :=
  ls.map (indentLine levels)

/-- The lines of `source`, without the blanks at their ends, `levels` steps to the right. -/
def indentSource (levels : Nat) (source : String) : String :=
  "\n".intercalate <|
    indentLines levels ((lines source.toList).map fun l => String.ofList (trimRight l))

end ShaderGraph.Text
