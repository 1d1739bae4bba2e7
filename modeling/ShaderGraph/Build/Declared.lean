import ShaderGraph.Build.State

/-!
# Structs and native functions

What a stage must declare because something in it is of a type or calls a function.

* `useType` declares the structs that a type needs, each after the structs of its members, and
  checks that the type can be written.
* `registerFunction` reads a native function after the functions it includes, and `useFunction`
  declares it after them. A GLSL function comes into a WGSL program as the translator of the host
  writes it (`emitFunction`).
-/

namespace ShaderGraph.Build

/-! ### Structs -/

/-- Declares the structs that a type needs; `fuel` bounds how deep structs are nested. -/
def markTypeIn : Nat → ValueType → Build Unit
  | 0, _ => exhaust
  | fuel + 1, .struct name => do
    if (← here).structs.contains name then return
    for m in ← structMembers name do markTypeIn fuel m.type
    modifyHere fun b => { b with structs := appendNew b.structs name }
  | fuel + 1, .array element _ => markTypeIn fuel element
  | _ + 1, _ => return

/-- How deep arrays are nested in a type. -/
def arrayDepth : ValueType → Nat
  | .array element _ => arrayDepth element + 1
  | _ => 0

/-- How deep the struct layouts of a plan can be nested in one another, with their arrays. -/
def structDepth (p : Plan) : Nat :=
  p.structs.values.foldl
    (fun n members => members.foldl (fun n m => n + arrayDepth m.type) (n + 1)) 1

/-- Declares the structs that a type needs. -/
def markType (t : ValueType) : Build Unit := do
  markTypeIn (arrayDepth t + structDepth (← read).plan + 1) t

/-- Declares the structs that a type needs and checks that the type can be written. -/
def useType (t : ValueType) : Build Unit := do
  markType t
  match (← dialect).refuses? t with
  | some e => fail e
  | none => return

/-! ### Native functions -/

/-- The name and the text of a function in the programs; in its own dialect it is called `claimed`.
`includes` are the texts of the functions it includes, each in the dialect of that one. -/
def emitFunction (native : NativeFunction) (f : Native.Declaration) (claimed : String)
    (includes : List String) : Build (String × String) := do
  let target ← dialect
  if native.dialect = target then return (claimed, f.code claimed)
  else if native.dialect = .glsl then
    let emitted ← ofExcept (f.translate (← read).plan.host.translate claimed includes)
    if emitted.1 ≠ claimed then reserveGlobal emitted.1
    return emitted
  else fail (DialectError.foreignFunction native.dialect target f.name)

/-- Names a function that was read and writes it in the dialect of the programs. -/
def functionEntry (native : NativeFunction) (f : Native.Declaration) (includes : List String) :
    Build FunctionEntry := do
  let claimed ← claimGlobal f.name
  let emitted ← emitFunction native f claimed includes
  return ⟨emitted.1, claimed, f.inputs, f.result, emitted.2, f.code claimed, native.includes⟩

/-- Reads a native function that is not known yet; `path` holds the functions that include
it. -/
def registerFunctionIn : Nat → List FunctionId → FunctionId → Build FunctionEntry
  | 0, _, _ => exhaust
  | fuel + 1, path, id => do
    match (← get).functions.get? id with
    | some entry => return entry
    | none =>
      if path.contains id then fail GraphError.includeCycle
      match (← read).plan.graph.function? id with
      | none => fail (GraphError.missingFunction id)
      | some native =>
        let includes ← native.includes.mapM (registerFunctionIn fuel (id :: path))
        let f ← ofExcept (Native.Declaration.read native.dialect native.source)
        let entry ← functionEntry native f (includes.map FunctionEntry.source)
        modify fun s => { s with functions := s.functions.put id entry }
        return entry

/-- How long a chain of functions is that include one another. -/
def includeDepth : Build Nat := return (← read).plan.graph.functions.size + 2

/-- The entry of a native function. -/
def registerFunction (id : FunctionId) : Build FunctionEntry := do
  registerFunctionIn (← includeDepth) [] id

/-- Declares a function after those it includes. -/
def useFunctionIn : Nat → FunctionId → Build Unit
  | 0, _ => exhaust
  | fuel + 1, id => do
    let entry ← registerFunction id
    if (← here).functions.contains id then return
    for i in entry.includes do useFunctionIn fuel i
    for p in entry.inputs do markType p.valueType
    markType entry.result
    modifyHere fun b => { b with functions := appendNew b.functions id }

/-- Declares a function after those it includes. -/
def useFunction (id : FunctionId) : Build Unit := do useFunctionIn (← includeDepth) id

end ShaderGraph.Build
