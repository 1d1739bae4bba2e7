import ShaderGraph.Typing.Operator

/-!
# Types of math methods

* `MathMethod.resultType` is the type of a call.
* `MathMethod.argumentTypes` are the types to which the arguments are brought.
-/

namespace ShaderGraph.MathMethod

/-- The greatest number of components among some types, and one where there are none. -/
def greatestWidth (types : List ValueType) : UInt32 :=
  match types.map ValueType.components with
  | [] => 1
  | n :: ns => ns.foldl (fun a b => if a < b then b else a) n

/-- The kind in which the scalars of some types meet. -/
def commonKind? (forceFloat : Bool) (types : List ValueType) : Option ScalarKind :=
  let kinds := types.filterMap ValueType.scalarKind
  if forceFloat || kinds.contains .float then some .float
  else match kinds with
    | [] => some .float
    | k :: ks => if ks.all (· = k) then some k else none

/-- The widest among some scalars and vectors of one width. -/
def widest (m : MathMethod) (types : List ValueType) (forceFloat : Bool) :
    Except TypeError ValueType :=
  let n := greatestWidth types
  if types.any fun t => !t.isScalar && t.components != n then .error (.mathWidths m)
  else match commonKind? forceFloat types with
    | none => .error (.mathKinds m)
    | some kind =>
      match ValueType.ofComponents kind n with
      | some t => .ok t
      | none => .error (.mathForm m n)

/-- The type with floats for its scalars. -/
def floatForm (t : ValueType) : Except TypeError ValueType :=
  match t.withKind? .float with
  | some t => .ok t
  | none => .error (.floatForm t)

/-- Whether a value of the type can be an argument at all. -/
def isNumeric (t : ValueType) : Bool := t.isScalarOrVector && t.scalarKind != some .bool

/-- The type of a call with the right number of numeric arguments, the first of which is of
type `first`. -/
def callType (m : MathMethod) (args : List ValueType) (first : ValueType) :
    Except TypeError ValueType :=
  match m with
  | length => .ok .float
  | distance => (m.widest args true).map fun _ => .float
  | dot =>
    if first.isScalar || args.any fun t => t.components != first.components then
      .error .dotOperands
    else .ok .float
  | cross => if args.any fun t => t.components != 3 then .error .crossOperands else .ok .vec3
  | reflect => if args.any ValueType.isScalar then .error .reflectOperands else m.widest args true
  | abs => .ok first
  | sign => if first.scalarKind = some .uint then .error .signOfUint else .ok first
  | min | max | clamp => m.widest args false
  | pow | step | atan2 | mix | smoothstep => m.widest args true
  | _ => floatForm first

/-- The type of a call. -/
def resultType (m : MathMethod) (args : List ValueType) : Except TypeError ValueType :=
  if args.length ≠ m.arity then .error (.mathArity m args.length)
  else match args.find? fun t => !isNumeric t with
    | some t => .error (.mathOperand m t)
    | none => m.callType args (args.headD .float)

/-- The types to which the arguments of a call of type `result` are brought. -/
def argumentTypes (m : MathMethod) (args : List ValueType) (result : ValueType) :
    Except TypeError (List ValueType) :=
  match m with
  | length | normalize => (floatForm (args.headD .float)).map fun t => [t]
  | dot | distance | reflect => (m.widest args true).map fun t => [t, t]
  | cross => .ok [.vec3, .vec3]
  | _ => .ok (args.map fun _ => result)

end ShaderGraph.MathMethod
