import Midend.Constants.Knowledge
import Midend.Graph.Basic

/-! # Which values are constant

Follows the graph from its entry along the edges that can be taken, and records what is known of every
definition on the way. A block is visited when it is first reached, and the users of a definition when more
becomes known of it.
-/

namespace Midend.Constants

structure Facts where
  values : SideTable Knowledge := {}
  reachable : NumberSet := {}
  /-- The blocks reached but not visited, the next one first. -/
  blocks : List BlockId := []
  /-- The definitions of which more is known than their users have seen, the next one first. -/
  definitions : List InstId := []

namespace Facts

def value (f : Facts) (d : InstId) : Knowledge := (f.values.get? d.index).getD .unknown

def isReachable (f : Facts) (b : BlockId) : Bool := f.reachable.contains b.index

end Facts

/-! ## The value of an instruction -/

/-- Identity with null is decided by the class of the other operand. -/
def compareNull (g : FlowGraph) (i : InstId) (other : Nat) (negate : Bool) : Except Fault Knowledge := do
  let cls ← g.useClass i other
  if cls = .dynamic || cls = .illegal then return .varying
  return .bool ((cls == .null) != negate)

def compareIdentity (g : FlowGraph) (i : InstId) (negate : Bool) (l r : Knowledge) :
    Except Fault Knowledge :=
  match l, r with
  | .known a, .known b => return .bool ((a == b) != negate)
  | .known .null, .varying => compareNull g i 1 negate
  | .varying, .known .null => compareNull g i 0 negate
  | .varying, _ | _, .varying => return .varying
  | _, _ => return .unknown

/-- The value of a comparison, alone or in the branch `i`. -/
def compareValue (g : FlowGraph) (f : Facts) (i : InstId) (c : Comparison) : Except Fault Knowledge :=
  let l := f.value c.left
  let r := f.value c.right
  if c.kind = .strict then compareIdentity g i (c.op == .neStrict) l r
  else return .compareOrdered c.op l r

/-- An instruction that is not evaluated varies once its inputs are known. -/
def unevaluated (f : Facts) (d : Inst) : Option Knowledge :=
  let inputs := d.args.map f.value
  if !d.isDefinition then none
  else if inputs.any (· == .varying) then some .varying
  else if inputs.any (· == .unknown) then none
  else some .varying

/-- The value of an instruction that is neither a phi nor a jump; `none` says that nothing new is known. -/
def transfer (g : FlowGraph) (f : Facts) (i : InstId) (d : Inst) : Except Fault (Option Knowledge) := do
  match d with
  | .constant c => return some (.known c)
  | .parameter _ => return some .varying
  | .pushArgument a => return some (f.value a)
  | .constraint _ inputs => return some (f.value (← itemAt inputs 0))
  | .compare c => return some (← compareValue g f i c)
  | .binaryOp .binarySmiOp op l r _ => return Knowledge.smiOp op (f.value l) (f.value r)
  | .unary .booleanNegate a => return (f.value a).negate
  | .loadField _ _ .objectArrayLength _ a =>
    match ← g.inst a with
    | .createArray elements => return some (.known (.smi elements.length))
    | _ => return some .varying
  | .storeField .. | .storeIndexed .. => return some .varying
  | d => return unevaluated f d

/-- A phi sees the inputs of the predecessors that were reached. -/
def phiValue (f : Facts) (inputs : List (BlockId × InstId)) : Knowledge :=
  (inputs.filter fun (p, _) => f.isReachable p).foldl (fun v (_, d) => v.join (f.value d)) .unknown

/-! ## Visits -/

abbrev Analyze := StateT Facts (Except Fault)

/-- Records the value of a definition. If it is new, the users have to see it. -/
def setValue (g : FlowGraph) (d : InstId) (v : Knowledge) : Analyze Unit := do
  let f ← get
  if f.value d == v then return
  let used := !(← g.inputUses d).isEmpty
  set { f with
    values := f.values.insert d.index v
    definitions := if used && d ∉ f.definitions then d :: f.definitions else f.definitions }

def reach (b : BlockId) : Analyze Unit := do
  let f ← get
  if f.isReachable b then return
  set { f with reachable := ← f.reachable.insert b.index, blocks := b :: f.blocks }

def visitPhi (g : FlowGraph) (phi : InstId) : Analyze Unit := do
  match ← g.instBlock phi with
  | some b => setValue g phi (phiValue (← get) ((← g.preds b).zip (← g.args phi)))
  | none => pure ()

def visitPhis (g : FlowGraph) (b : BlockId) : Analyze Unit := do
  (← g.livePhis b).forM (visitPhi g)

/-- A new edge into a block that was reached before adds an input to its phis. -/
def visitGoto (g : FlowGraph) (target : BlockId) : Analyze Unit := do
  if (← get).isReachable target then visitPhis g target else reach target

def visitBranch (g : FlowGraph) (i : InstId) (c : Comparison) (onTrue onFalse : BlockId) :
    Analyze Unit := do
  match ← compareValue g (← get) i c with
  | .known (.bool true) => reach onTrue
  | .known _ => reach onFalse
  | .unknown | .varying =>
    reach onTrue
    reach onFalse

def visitInst (g : FlowGraph) (i : InstId) : Analyze Unit := do
  match ← g.inst i with
  | .phi .. => visitPhi g i
  | .goto target => visitGoto g target
  | .branch c onTrue onFalse => visitBranch g i c onTrue onFalse
  | d =>
    match ← transfer g (← get) i d with
    | some v => setValue g i v
    | none => pure ()

def visitBlock (g : FlowGraph) (b : BlockId) : Analyze Unit := do
  if b = FlowGraph.graphEntry then
    g.initialDefinitions.forM (visitInst g)
    (← g.succs b).forM reach
  else
    visitPhis g b
    (g.insts b).forM (visitInst g)

/-- Visits the users of a definition that were reached. -/
def visitUsers (g : FlowGraph) (d : InstId) : Analyze Unit := do
  (← g.inputUses d).forM fun u => do
    match ← g.instBlock u.user with
    | some b => if (← get).isReachable b then visitInst g u.user
    | none => pure ()

/-- Visits all that waits, blocks before definitions. -/
def drain (g : FlowGraph) : Nat → Analyze Unit
  | 0 => throw .unsettled
  | steps + 1 => do
    let f ← get
    match f.blocks, f.definitions with
    | b :: rest, _ =>
      set { f with blocks := rest }
      visitBlock g b
      drain g steps
    | [], d :: rest =>
      set { f with definitions := rest }
      visitUsers g d
      drain g steps
    | [], [] => pure ()

/-- A bound on the visits. Each block is visited once. What is known of a definition mostly changes twice, but
where ways of different length meet it may change once for each of them. -/
def visitLimit (g : FlowGraph) : Nat :=
  g.blocks.size + ((g.nodes.size + 2) * (g.nodes.size + 2)) <<< g.nodes.size

/-- What is known once nothing waits any more. -/
def analyze (g : FlowGraph) : Except Fault Facts := do
  let reachable ← NumberSet.ofCapacity g.blocks.size
  let ((), f) ← (do
    reach FlowGraph.graphEntry
    drain g (visitLimit g) : Analyze Unit).run { reachable }
  return f

end Midend.Constants
