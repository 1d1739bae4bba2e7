import ShaderGraph.Build.TypeOf

/-!
# Varyings

A varying is written by the vertex program and read by the fragment program. Here it gets its
name and its interpolation; its location follows when the vertex program writes it.
-/

namespace ShaderGraph.Build

/-- How values of a type are interpolated. Whole numbers are not. -/
def interpolationFor (t : ValueType) (wanted : Interpolation) : Interpolation :=
  match t.scalarKind with
  | some .int | some .uint => .flat
  | _ => wanted

/-- The name of a new varying. -/
def claimVarying (name : Option String) : Build String := do
  match name with
  | some name => claimGlobal ("v_" ++ name)
  | none =>
    modifyGet fun s =>
      let (name, counter, globals) :=
        s.globals.claimNumbered .empty "nodeVarying" s.varyingCounter
      (name, { s with globals := globals, varyingCounter := counter })

/-- Enters a varying; the vertex program must be there to write it. -/
def enterVarying (id source : NodeId) (name : Option String) (interpolation : Interpolation)
    (sampling : Option Sampling) : Build VaryingEntry := do
  if (← stage) = .compute then fail ScopeError.varyingInCompute
  if !(← read).active.contains .vertex then fail ScopeError.varyingWithoutVertex
  let type ← typeOf source
  if !type.isInterface then fail (TypeError.varyingForm type)
  let emitted ← claimVarying name
  let v : VaryingEntry :=
    ⟨emitted, type, source, interpolationFor type interpolation, sampling, none⟩
  modify fun s => { s with varyings := s.varyings.put id v }
  return v

/-- The entry of a varying. -/
def registerVarying (id source : NodeId) (name : Option String) (interpolation : Interpolation)
    (sampling : Option Sampling) : Build VaryingEntry := do
  match (← get).varyings.get? id with
  | some v => return v
  | none => enterVarying id source name interpolation sampling

/-- Whether the vertex program writes a varying. -/
def isWritten (s : BuildState) (id : NodeId) : Bool :=
  ((s.varyings.get? id).bind VaryingEntry.location).isSome

/-- Gives a varying that the vertex program writes the next location. One whose source comes
back to it is written there already and keeps its location. -/
def locateVarying (id : NodeId) (v : VaryingEntry) : Build Unit :=
  modify fun s =>
    if isWritten s id then s
    else { s with
      varyings := s.varyings.put id { v with location := some s.nextVarying }
      nextVarying := s.nextVarying + 1 }

end ShaderGraph.Build
