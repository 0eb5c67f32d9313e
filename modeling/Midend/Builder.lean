import Midend.Graph.Edit

/-! # Building unoptimized graphs

The builder lays a method out the way a code generator for a stack machine does: locals are read and written
by instructions, call arguments are pushed, and values travel on an expression stack that is not spelled
out. Every instruction has to consume its inputs in the order in which they were produced.
-/

namespace Midend

/-- Edits with a current block that instructions are added to. -/
abbrev Build := StateT BlockId Edit

namespace Build

/-- Runs a builder on a graph, starting in its normal entry. -/
def run {α : Type} (b : Build α) : Edit α := do return (← StateT.run b FlowGraph.normalEntry).1

/-- Goes on at the end of another block. -/
def appendTo (b : BlockId) : Build Unit := set b

def targetBlock : Build BlockId := Edit.addBlock .target

def joinBlock : Build BlockId := Edit.addBlock .join

def catchEntry : Build BlockId := Edit.addCatchEntry

/-- Instructions that the unoptimized code cannot resume at. -/
def needsDeoptId : Opcode → Bool
  | .constant | .loadLocal | .storeLocal | .pushArgument | .goto => false
  | _ => true

def markUsed (i : InstId) : Edit Unit := Edit.modifyNode i fun n => { n with isUsed := true }

/-- A new instruction at the end of a block. Its inputs are consumed from the expression stack; its pushed
arguments stay there until it is executed. -/
def buildAt (b : BlockId) (d : Inst) : Edit InstId := do
  d.args.forM markUsed
  let i ← Edit.addInst d
  if needsDeoptId d.opcode then
    let id ← Edit.allocDeoptId
    Edit.modifyNode i fun n => { n with deoptId := some id }
  Edit.link b i
  return i

def inst (d : Inst) : Build InstId := do buildAt (← get) d

def constant (c : Constant) : Build InstId := inst (.constant c)

def smi (v : Int) : Build InstId := constant (.smi v)

def loadLocal (slot : Nat) : Build InstId := inst (.loadLocal slot)

def storeLocal (slot : Nat) (value : InstId) : Build InstId := inst (.storeLocal slot value)

/-- Pushes a call argument. A value made in the current block is pushed right behind its instruction, so
that all arguments of a call may be evaluated before any is pushed. -/
def pushArgument (value : InstId) : Build InstId := do
  let current ← get
  let g ← getThe FlowGraph
  if (← g.instBlock value) ≠ some current then inst (.pushArgument value)
  else
    markUsed value
    let push ← Edit.addInst (.pushArgument value)
    Edit.linkAfter value push
    return push

def pushArguments (values : List InstId) : Build (List InstId) := values.mapM pushArgument

/-- A call dispatched on the first of its values. -/
def instanceCall (selector : String) (token : Token) (values : List InstId) (checked : Nat)
    (feedback : Option InlineCache) : Build InstId := do
  let arguments ← pushArguments values
  inst (.instanceCall { selector, token, arguments, feedback, checked })

def binaryCall (op : Token) (l r : InstId) (feedback : Option InlineCache) : Build InstId :=
  instanceCall op.symbol op [l, r] 2 feedback

def getterCall (field : String) (receiver : InstId) (feedback : Option InlineCache) : Build InstId :=
  instanceCall ("get:" ++ field) .get [receiver] 1 feedback

def setterCall (field : String) (receiver value : InstId) (feedback : Option InlineCache) :
    Build InstId :=
  instanceCall ("set:" ++ field) .set [receiver, value] 1 feedback

def constructorCall (f : FunctionId) (values : List InstId) (result : ClassId) : Build InstId := do
  let arguments ← pushArguments values
  inst (.staticCall f arguments result)

def staticCall (f : FunctionId) (values : List InstId) : Build InstId :=
  constructorCall f values .dynamic

def allocateObject (cls : ClassId) (values : List InstId) : Build InstId := do
  let arguments ← pushArguments values
  inst (.allocateObject cls arguments)

def createArray (values : List InstId) : Build InstId := do
  let arguments ← pushArguments values
  inst (.createArray arguments)

def loadField (object : InstId) (offset : Nat) (immutable : Bool) : Build InstId :=
  inst (.loadField offset .dynamic .unknown immutable object)

def storeField (object : InstId) (offset : Nat) (value : InstId) : Build InstId :=
  inst (.storeField offset true object value)

def compare (c : Comparison) : Build InstId := inst (.compare c)

def branch (c : Comparison) (onTrue onFalse : BlockId) : Build InstId := inst (.branch c onTrue onFalse)

/-- Branches on a value by comparing it with `true`. -/
def branchIf (condition : InstId) (onTrue onFalse : BlockId) : Build InstId := do
  let t ← constant (.bool true)
  branch (.strict .eqStrict condition t) onTrue onFalse

def goto (target : BlockId) : Build InstId := inst (.goto target)

def returnValue (value : InstId) : Build InstId := inst (.unary .ret value)

def throwValue (value : InstId) : Build InstId := inst (.unary .throw value)

end Build

end Midend
