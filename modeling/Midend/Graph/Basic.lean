import Midend.Fault
import Midend.Graph.Layout
import Midend.Inst.Traits
import Midend.Inst.Value
import Midend.NumberSet

/-! # Flow graphs

The flow graph of one method: blocks, instructions with what is known of them, and the orders found by the
last discovery of blocks. This module reads graphs; `Midend.Graph.Edit` changes them.
-/

/-! ## Deoptimization environments

What the local variables and the expression stack of the unoptimized code hold at a point where optimized
code may give up. The fixed parameters come first.
-/

namespace Midend

structure Environment where
  values : List InstId
  fixedParameters : Nat
deriving DecidableEq, Inhabited

namespace Environment

def valueAt (e : Environment) (i : Nat) : Except Fault InstId := itemAt e.values i

def setValueAt (e : Environment) (i : Nat) (v : InstId) : Except Fault Environment :=
  if i < e.values.length then .ok { e with values := e.values.set i v } else .error .outOfRange

/-- The text of an environment whose values are shown under the given names. -/
def write (names : List String) : String := "env=\x7b" ++ ", ".intercalate names ++ "\x7d"

def text (e : Environment) : String := write (e.values.map InstId.text)

end Environment

inductive BlockKind where
  /-- The one entry of the graph. Its successors are the normal entry and the catch entries. -/
  | graphEntry
  /-- A block with one predecessor, which branches to it. -/
  | target
  /-- A block reached by gotos. Only joins have phis. -/
  | join
deriving DecidableEq, Inhabited

structure Block where
  kind : BlockKind
  preds : List BlockId := []
  phis : List InstId := []
  preorderNumber : Option Nat := none
  postorderNumber : Option Nat := none
  /-- The immediate dominator. -/
  dominator : Option BlockId := none
  /-- The blocks that have this one as their immediate dominator. -/
  dominated : List BlockId := []
  /-- The preorder numbers of the loop this block is the header of, in ascending order. -/
  loop : Option (List Nat) := none
deriving Inhabited

/-- An instruction together with its place in the graph. -/
structure Node where
  inst : Inst
  block : Option BlockId := none
  ssaIndex : Option Nat := none
  env : Option Environment := none
  deoptId : Option Nat := none
  inputUses : List Use := []
  envUses : List Use := []
  /-- The propagated class. -/
  cls : Option ClassId := none
  range : Option Range := none
  /-- The value a redundant load was replaced by. -/
  replacement : Option InstId := none
  /-- The unoptimized code pops the value from the expression stack. -/
  isUsed : Bool := false
deriving Inhabited

/-- The class of a definition before any propagation. -/
def Node.ownClass (n : Node) : ClassId :=
  match n.inst.opcode with
  | .phi => .illegal
  | .parameter | .assertAssignable => .dynamic
  | _ => n.inst.resultClass

structure FlowGraph where
  name : String
  /-- The fixed parameters, which have the first local slots. -/
  parameterCount : Nat
  /-- The local variables besides the parameters. -/
  localCount : Nat
  /-- The class this is an instance method of. -/
  owner : Option ClassId := none
  nextSsaIndex : Nat := 0
  nextDeoptId : Nat := 0
  blocks : Array Block := #[{ kind := .graphEntry }, { kind := .target }]
  nodes : Array Node := #[]
  layout : Layout := {}
  catchEntries : List BlockId := []
  /-- The constants and parameters available from the entry on. -/
  initialDefinitions : List InstId := []
  /-- Classes known to reach a use, where they say more than the class of the definition. -/
  reaching : List (Use × ClassId) := []
  preorder : List BlockId := []
  postorder : List BlockId := []
  /-- At a preorder number, the preorder number of the block it was discovered from. -/
  parents : Array (Option Nat) := #[]
  /-- At a preorder number, the local slots the block stores to. -/
  assigned : Array NumberSet := #[]
deriving Inhabited

namespace FlowGraph

/-- A graph of nothing but its two entries. -/
def new (name : String) (parameterCount localCount : Nat) : FlowGraph :=
  { name, parameterCount, localCount }

def graphEntry : BlockId := ⟨0⟩

def normalEntry : BlockId := ⟨1⟩

variable (g : FlowGraph)

/-- The number of local slots, those of the parameters included. -/
def variableCount : Except Fault Nat :=
  let n := g.parameterCount + g.localCount
  if n < Word.countLimit then .ok n else .error .overflow

def reversePostorder : List BlockId := g.postorder.reverse

/-! ## Blocks -/

def block (b : BlockId) : Except Fault Block := orFault g.blocks[b.index]? .missingKey

def kind (b : BlockId) : Except Fault BlockKind := do return (← g.block b).kind

def isJoin (b : BlockId) : Except Fault Bool := do return (← g.kind b) == .join

def preds (b : BlockId) : Except Fault (List BlockId) := do return (← g.block b).preds

def phis (b : BlockId) : Except Fault (List InstId) := do return (← g.block b).phis

/-- The position of `p` among the predecessors of `b`, which is the position of its phi inputs. -/
def predIndex (b p : BlockId) : Except Fault (Option Nat) := do return (← g.preds b).findIdx? (· == p)

def insts (b : BlockId) : List InstId := g.layout.insts b

def lastInst (b : BlockId) : Option InstId := g.layout.last? b

/-! ## Instructions -/

def node (i : InstId) : Except Fault Node := orFault g.nodes[i.index]? .missingKey

def inst (i : InstId) : Except Fault Inst := do return (← g.node i).inst

def opcode (i : InstId) : Except Fault Opcode := do return (← g.inst i).opcode

def args (i : InstId) : Except Fault (List InstId) := do return (← g.inst i).args

def arg (i : InstId) (k : Nat) : Except Fault InstId := do itemAt (← g.args i) k

def instBlock (i : InstId) : Except Fault (Option BlockId) := do return (← g.node i).block

def isPlaced (i : InstId) : Bool := g.layout.isPlaced i

def env (i : InstId) : Except Fault (Option Environment) := do return (← g.node i).env

def ssaIndex (i : InstId) : Except Fault (Option Nat) := do return (← g.node i).ssaIndex

def range (i : InstId) : Except Fault (Option Range) := do return (← g.node i).range

def inputUses (i : InstId) : Except Fault (List Use) := do return (← g.node i).inputUses

def envUses (i : InstId) : Except Fault (List Use) := do return (← g.node i).envUses

def hasUses (i : InstId) : Except Fault Bool := do
  let n ← g.node i
  return !n.inputUses.isEmpty || !n.envUses.isEmpty

def isAlivePhi (i : InstId) : Except Fault Bool := do return (← g.inst i).isAlivePhi

def constantOf (i : InstId) : Except Fault (Option Constant) := do return (← g.inst i).constant?

def smiConstantOf (i : InstId) : Except Fault (Option Int) := do
  return (← g.constantOf i).bind Constant.smi?

/-- The successors of a block. -/
def succs (b : BlockId) : Except Fault (List BlockId) := do
  if b = graphEntry then return normalEntry :: g.catchEntries
  match g.lastInst b with
  | none => return []
  | some i => return (← g.inst i).successors

/-- The live phis of a block. -/
def livePhis (b : BlockId) : Except Fault (List InstId) := do (← g.phis b).filterM g.isAlivePhi

/-- All definitions of the discovered blocks: the initial ones, then block by block the live phis and the
instructions that produce a value. -/
def definitions : Except Fault (List InstId) := do
  let inBlocks ← g.reversePostorder.mapM fun b => do
    let phis ← g.livePhis b
    let insts ← (g.insts b).filterM fun i => return (← g.inst i).isDefinition
    return phis ++ insts
  return g.initialDefinitions ++ inBlocks.flatten

/-! ## Classes -/

/-- The propagated class of a definition, or the class it has by itself. -/
def classOf (i : InstId) : Except Fault ClassId := do
  let n ← g.node i
  return n.cls.getD n.ownClass

def reachingClass? (u : Use) : Option ClassId := g.reaching.lookup u

/-- The class of the value that flows into input `k` of `user`. -/
def useClass (user : InstId) (k : Nat) : Except Fault ClassId := do
  match g.reachingClass? ⟨user, k⟩ with
  | some c => return c
  | none => g.classOf (← g.arg user k)

/-! ## Dominance -/

/-- Whether `a` is `b` or above it in the dominator tree, which is no higher than there are blocks. -/
def dominatesUpTo (a : BlockId) : Nat → BlockId → Except Fault Bool
  | 0, b => .ok (b == a)
  | n + 1, b => do
    if b = a then return true
    match (← g.block b).dominator with
    | none => return false
    | some d => dominatesUpTo a n d

def dominates (a b : BlockId) : Except Fault Bool := g.dominatesUpTo a (g.blocks.size + 1) b

/-- Whether `a` is evaluated before `b` wherever `b` is. Initial definitions and phis come before
everything in the blocks their block dominates. -/
def instDominates (a b : InstId) : Except Fault Bool := do
  match (← g.node a).block, (← g.node b).block with
  | some x, some y =>
    if x = graphEntry || (← g.opcode a) == .phi then
      if a = b then return false
      g.dominates x y
    else if x ≠ y then g.dominates x y
    else if (← g.opcode b) == .phi then return false
    else return b ∈ (← g.layout.after a)
  | _, _ => return false

/-! ## Loops -/

def loopContains (header b : BlockId) : Except Fault Bool := do
  match (← g.block header).loop, (← g.block b).preorderNumber with
  | some body, some n => return n ∈ body
  | _, _ => return false

/-- The predecessor of a loop header that is its immediate dominator. -/
def preHeader? (header : BlockId) : Except Fault (Option BlockId) := do
  let b ← g.block header
  return b.dominator.bind fun d => if d ∈ b.preds then some d else none

def loopHeaders : Except Fault (List BlockId) :=
  g.reversePostorder.filterM fun b => return (← g.block b).loop.isSome

end FlowGraph

end Midend
