import Midend.Context

/-! # Class propagation

Finds the class of every definition by going over the blocks in reverse postorder until nothing changes. Phis
merge the classes of their inputs. Type tests and assertions that the class of their input decides are taken
out on the way.
-/

namespace Midend.Classes

/-- The receiver of an instance method has the class of its owner, if no subclass can take its place. -/
def parameterClass (ctx : Context) (owner : Option ClassId) (index : Nat) : ClassId :=
  match owner with
  | some cls =>
    if index = 0 && ctx.config.useClassHierarchy && !ctx.hierarchy.hasSubclasses cls then cls else .dynamic
  | none => .dynamic

def visitParameters (ctx : Context) : Edit Bool := do
  let g ← get
  anyChange g.initialDefinitions fun d => do
    match ← (← get).inst d with
    | .parameter index => Edit.setClass d (parameterClass ctx g.owner index)
    | _ => return false

/-- The class of a value that may be of either class; `illegal` stands for a value not visited yet. -/
def merge (a b : ClassId) : ClassId :=
  if b = .illegal then a else if a = .illegal then b else if a = b then a else .dynamic

/-- The class of a phi whose inputs have the given classes. -/
def phiClass (inputs : List ClassId) : ClassId :=
  let merged := inputs.foldl merge .illegal
  if merged = .illegal then .dynamic else merged

/-- Inputs that were not visited yet are left aside, and the phi counts as changed. -/
def visitPhi (phi : InstId) : Edit Bool := do
  let g ← get
  let inputs ← (← g.args phi).mapM fun d => (g.classOf d : Except Fault ClassId)
  let changed ← Edit.setClass phi (phiClass inputs)
  return changed || inputs.any (· == .illegal)

/-- The class of the first input, if it is precise enough to decide type tests. -/
def knownClass? (g : FlowGraph) (user : InstId) : Except Fault (Option ClassId) := do
  let cls ← g.useClass user 0
  return if cls = .dynamic || cls = .illegal then none else some cls

/-- A value of class `cls` passes an assertion of `type`; null always does. -/
def passesAssertion (h : Hierarchy) (type cls : ClassId) : Bool := cls == .null || h.isSubtype cls type

/-- The answer of a type test on a value of class `cls`. -/
def testAnswer (h : Hierarchy) (type : ClassId) (negate : Bool) (cls : ClassId) : Bool :=
  h.isSubtype cls type != negate

/-- Takes out a type test or assertion whose outcome is known. -/
def eliminateCheck (h : Hierarchy) (i : InstId) : Edit Bool := do
  let g ← get
  match ← g.inst i with
  | .assertAssignable type value =>
    match ← knownClass? g i with
    | some cls =>
      if passesAssertion h type cls then
        Edit.replaceByExisting i value
        return true
      else return false
    | none => return false
  | .unary .assertBoolean value =>
    if (← knownClass? g i) = some .bool then
      Edit.replaceByExisting i value
      return true
    else return false
  | .instanceOf type negate _ =>
    match ← knownClass? g i with
    | some cls =>
      let answer ← Edit.getConstant (.bool (testAnswer h type negate cls))
      Edit.replaceByExisting i answer
      return true
    | none => return false
  | _ => return false

/-- A definition gets the class that it has by itself. -/
def visitInst (h : Hierarchy) (i : InstId) : Edit Bool := do
  if !(← get).isPlaced i then return false
  if ← eliminateCheck h i then return true
  let d ← (← get).inst i
  if d.isDefinition && d.opcode ≠ .pushArgument then Edit.setClass i d.resultClass
  else return false

/-- One round over all blocks. -/
def visitBlocks (h : Hierarchy) : Edit Bool := do
  anyChange (← get).reversePostorder fun b => do
    let phis ← anyChange (← (← get).phis b) fun phi => do
      if ← (← get).isAlivePhi phi then visitPhi phi else return false
    let insts ← anyChange ((← get).insts b) (visitInst h)
    return phis || insts

/-- Rounds until one of them changes nothing. -/
def settle (h : Hierarchy) : Nat → Edit Bool
  | 0 => throw .unsettled
  | rounds + 1 => do
    if ← visitBlocks h then
      discard <| settle h rounds
      return true
    else return false

/-- An ample bound on the rounds. In every round but the last a check goes away or the class of a definition
changes, and around loops of phis a class may have to go as often as these have members. -/
def roundLimit (g : FlowGraph) : Nat :=
  let n := g.nodes.size + 3
  n * n * n * n

end Classes

/-- Propagates classes through the graph. -/
def propagateClasses (ctx : Context) : Edit Bool := do
  let parameters ← Classes.visitParameters ctx
  let blocks ← Classes.settle ctx.hierarchy (Classes.roundLimit (← get))
  return parameters || blocks

end Midend
