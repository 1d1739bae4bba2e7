import ShaderGraph.Stage

/-!
# Reserved words

The identifiers that generated code must never declare: the keywords of a dialect and the
names that every generated program uses itself.
-/

namespace ShaderGraph.Dialect

/-- The reserved words of GLSL. -/
def glslWords : List String :=
  ["main", "fragColor", "attribute", "const", "uniform", "varying", "buffer", "shared",
   "layout", "centroid", "flat", "smooth", "noperspective", "patch", "sample", "break",
   "continue", "do", "for", "while", "switch", "case", "default", "if", "else", "in", "out",
   "inout", "true", "false", "discard", "return", "struct", "void", "bool", "int", "uint",
   "float", "double", "vec2", "vec3", "vec4", "ivec2", "ivec3", "ivec4", "uvec2", "uvec3",
   "uvec4", "bvec2", "bvec3", "bvec4", "mat2", "mat3", "mat4", "sampler", "texture",
   "texture2D", "sampler2D", "input", "output", "filter", "common", "partition", "active",
   "mod", "highp", "mediump", "lowp", "precision", "invariant", "precise", "coherent",
   "volatile", "restrict", "readonly", "writeonly", "subroutine", "union", "enum", "class",
   "using", "namespace", "static", "extern", "external", "interface", "long", "short",
   "half", "fixed", "unsigned", "superp", "inline", "noinline", "public", "template",
   "this", "goto", "typedef", "cast", "sizeof", "asm"]

/-- The reserved words of WGSL. -/
def wgslWords : List String :=
  ["main", "output", "VertexOutput", "fn", "let", "var", "const", "return", "if", "else",
   "for", "while", "loop", "break", "continue", "switch", "case", "default", "struct",
   "true", "false", "discard", "enable", "alias", "override", "diagnostic", "requires",
   "array", "ptr", "sampler", "texture", "uniform", "storage", "function", "private",
   "workgroup", "bitcast", "f32", "i32", "u32", "f16", "bool", "vec2", "vec3", "vec4",
   "mat2x2", "mat3x3", "mat4x4", "mod", "self", "type", "target", "move", "new", "null",
   "static", "union", "using", "where", "with", "yield", "layout", "attribute", "varying",
   "smooth", "sample", "input", "select", "vertexIndex", "instanceIndex", "fragCoord",
   "frontFacing", "globalId", "localId", "workgroupId"]

/-- The reserved words of a dialect. -/
def reservedWords : Dialect → List String
  | .glsl => glslWords
  | .wgsl => wgslWords

end ShaderGraph.Dialect
