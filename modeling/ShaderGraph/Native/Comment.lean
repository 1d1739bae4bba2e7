import ShaderGraph.Text.Scan

/-!
# Comments

Shader sources with their comments blanked, in such a way that what is found in the blanked
text can be cut out of the source itself.

* `Glyph` is a character of a source together with whether it stands in a comment.
* `glyphs` marks a source; a line comment ends before the newline, a block comment after its
  closing mark or at the end of the text.
* `blanked` is the text in which comments are blank: a hidden character becomes as many blanks
  as it has bytes, and newlines stay.
-/

namespace ShaderGraph.Native

/-- A character of a source. -/
structure Glyph where
  char : Char
  /-- Whether the character belongs to a comment. -/
  hidden : Bool
deriving DecidableEq, Repr

/-- Where a character of a source stands. -/
inductive Region where
  | code
  | lineComment
  | blockComment
deriving DecidableEq, Repr

/-- The characters of a source that goes on in a region. -/
def glyphsIn : Region → List Char → List Glyph
  | _, [] => []
  | .code, '/' :: '/' :: cs => ⟨'/', true⟩ :: ⟨'/', true⟩ :: glyphsIn .lineComment cs
  | .code, '/' :: '*' :: cs => ⟨'/', true⟩ :: ⟨'*', true⟩ :: glyphsIn .blockComment cs
  | .code, c :: cs => ⟨c, false⟩ :: glyphsIn .code cs
  | .lineComment, '\n' :: cs => ⟨'\n', false⟩ :: glyphsIn .code cs
  | .lineComment, c :: cs => ⟨c, true⟩ :: glyphsIn .lineComment cs
  | .blockComment, '*' :: '/' :: cs => ⟨'*', true⟩ :: ⟨'/', true⟩ :: glyphsIn .code cs
  | .blockComment, c :: cs => ⟨c, true⟩ :: glyphsIn .blockComment cs

/-- The characters of a source. -/
def glyphs (source : List Char) : List Glyph := glyphsIn .code source

/-- What a character counts as when code is looked for. -/
def Glyph.shown (g : Glyph) : Char := if g.hidden && g.char != '\n' then ' ' else g.char

/-- A character in the blanked text. -/
def Glyph.blanked (g : Glyph) : List Char :=
  if g.hidden && g.char != '\n' then List.replicate g.char.utf8Size ' ' else [g.char]

/-- The blanked text. -/
def blanked (gs : List Glyph) : List Char := gs.flatMap Glyph.blanked

/-- The text of the source. -/
def written (gs : List Glyph) : List Char := gs.map Glyph.char

/-- Whether a character counts as blank. -/
def Glyph.isBlank (g : Glyph) : Bool := Text.isBlank g.shown

/-! ### Small facts -/

theorem written_glyphsIn (r : Region) (cs : List Char) : written (glyphsIn r cs) = cs := by
  unfold written
  fun_induction glyphsIn r cs <;> simp_all

/-- Marking a source loses nothing of it. -/
@[simp] theorem written_glyphs (cs : List Char) : written (glyphs cs) = cs := written_glyphsIn _ cs

theorem Glyph.shown_of_visible {g : Glyph} (h : g.hidden = false) : g.shown = g.char := by
  simp [shown, h]

end ShaderGraph.Native
