import ShaderGraph.Build.Inputs
import ShaderGraph.Typing.Math

/-!
# Types of nodes

* `typeOfNode` is the type of a node, given the types of the nodes it refers to.
* `typeOf` is the type of a node in the current context. A type that was found once is kept for
  the node and the context; a node whose type depends on itself is refused.
-/

namespace ShaderGraph.Build

/-! ### Rules of single nodes -/

/-- The type of a variable with the given value. -/
def variableType (t : ValueType) : Build ValueType := do
  if t = .void then fail TypeError.storedVoid
  return t

/-- The type of a conditional. Without a second branch it has no value. -/
def conditionalType (typeOf : NodeId → Build ValueType) (condition thenNode : NodeId)
    (elseNode : Option NodeId) : Build ValueType := do
  let c ← typeOf condition
  if c ≠ .bool then fail (TypeError.condition c)
  match elseNode with
  | none => return .void
  | some elseNode =>
    let t ← typeOf thenNode
    let e ← typeOf elseNode
    if t ≠ e then fail (TypeError.branches t e)
    return t

/-- The type of a loop counter. -/
def counterType (loop : NodeId) (param : Nat) : Build ValueType := do
  match ← node (← resolve loop) with
  | .loop params _ =>
    match params[param]? with
    | some p => return p.type
    | none => fail (GraphError.loopParam params.length param)
  | n => fail (GraphError.loopIndexTarget n.kindName)

/-- The type of a struct value. -/
def structType (layout : NodeId) : Build ValueType := do
  match ← node (← resolve layout) with
  | .structType name _ => return .struct name
  | n => fail (GraphError.structLayout n.kindName)

/-- The type of a member of a value of type `base`. -/
def memberType (base : ValueType) (name : String) : Build ValueType := do
  match base with
  | .struct s =>
    match (← structMembers s).find? fun m => m.name = name with
    | some m => return m.type
    | none => fail (TypeError.memberName s name)
  | _ => fail (TypeError.memberBase name base)

/-- The type of an element of a value of type `base` at an index of type `index`. -/
def elementType (base index : ValueType) : Build ValueType := do
  if index ≠ .int ∧ index ≠ .uint then fail (TypeError.indexType index)
  match base.element? with
  | some t => return t
  | none => fail (TypeError.indexBase base)

/-! ### All nodes -/

/-- The type of a node; `typeOf` gives the types of the nodes it refers to. -/
def typeOfNode (typeOf : NodeId → Build ValueType) (id : NodeId) : Node → Build ValueType
  | .const type values => ofExcept (constantType type values)
  | .uniform _ type .. | .property _ type => return type
  | .meshAttribute name type => attributeType name type
  | .varying source .. => typeOf source
  | .builtin b => return b.type
  | .texture .. => return .vec4
  | .storageBuffer _ element count _ => return .array element (count.getD 0)
  | .var value .. => do variableType (← typeOf value)
  | .assign .. | .loop .. | .jump _ => return .void
  | .operator op left right => do
    let l ← typeOf left
    let r ← typeOf right
    ofExcept (op.resultType l r)
  | .unary op operand => do ofExcept (op.resultType (← typeOf operand))
  | .math method args => do ofExcept (method.resultType (← args.mapM typeOf))
  | .split source components => do ofExcept (Swizzle.resultType (← typeOf source) components)
  | .join parts explicit => do ofExcept (joinType (← parts.mapM typeOf) explicit)
  | .convert _ target => return target
  | .conditional condition thenNode elseNode => conditionalType typeOf condition thenNode elseNode
  | .loopIndex loop param => counterType loop param
  | .stack _ output =>
    match output with
    | some output => typeOf output
    | none => return .void
  | .structType name _ => return .struct name
  | .struct layout _ => structType layout
  | .array element values => ofExcept (arrayType element values.length)
  | .member base name => do memberType (← typeOf base) name
  | .index base i => do
    let b ← typeOf base
    elementType b (← typeOf i)
  | .context inner values => inContext id values (typeOf inner)
  | .contextValue key fallback => withContextValue key fallback typeOf
  | .cache inner _ => typeOf inner
  | .call f _ => return (← registerFunction f).result
  | .remap .. | .custom _ => fail GraphError.unexpandedType

/-- A step that finds the type of a node; the node must not come up again on the way. -/
def whileTyping {α : Type} (key : NodeId × FrameId) (step : Build α) : Build α := do
  if (← read).typing.contains key then fail (GraphError.typeCycle key.1)
  withReader (fun env => { env with typing := key :: env.typing }) (located key.1 step)

/-- The type of a node in the current context; `fuel` bounds the depth of the recursion. -/
def typeOfIn : Nat → NodeId → Build ValueType
  | 0, _ => exhaust
  | fuel + 1, id => do
    let id ← resolve id
    -- the same node may have another type under other contexts
    let key := (id, Frame.current (← read).frames)
    match (← get).types.get? key with
    | some t => return t
    | none =>
      let t ← whileTyping key do typeOfNode (typeOfIn fuel) id (← node id)
      modify fun s => { s with types := s.types.put key t }
      return t

/-- A bound on the depth of a recursion over the nodes of a graph without cycles. A step down
leads to a node of lower rank; a step to a value that a context lends leaves that context, whose
rank is higher than that of all that the value refers to. So with `n` nodes there are fewer than
`2 ^ n` such steps, and at each node there are at most four steps that stay. -/
def depthBound : Build Nat := return Nat.pow 2 ((← read).plan.graph.size + 2)

/-- The type of a node in the current context. -/
def typeOf (id : NodeId) : Build ValueType := do typeOfIn (← depthBound) id

end ShaderGraph.Build
