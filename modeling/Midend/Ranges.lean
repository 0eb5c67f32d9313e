import Midend.Context
import Midend.Flow.Loops
import Midend.Ranges.Constraints
import Midend.Ranges.Induction

/-! # Range analysis

Finds symbolic ranges for the small integers of a graph, removes the bounds checks whose index provably lies
within the array, and notes the operations that cannot overflow. The constraints that this needs are taken
out again at the end.
-/

namespace Midend.Ranges

/-! ## Small integers -/

/-- The small integer checks of a block. -/
def checksIn (g : FlowGraph) (b : BlockId) : Except Fault (List InstId) :=
  (g.insts b).filterM fun i => return (← g.opcode i) == .checkSmi

/-- The small integers that a block defines, its phis last. -/
def valuesIn (g : FlowGraph) (b : BlockId) : Except Fault (List InstId) := do
  let insts ← (g.insts b).filterM fun i => do
    if !(← g.inst i).isDefinition then return false
    return (← g.classOf i) == .smi && (← g.ssaIndex i).isSome
  let phis ← (← g.livePhis b).filterM fun phi => return (← g.classOf phi) == .smi
  return insts ++ phis

/-- Forgets the ranges of an earlier analysis. -/
def clearRanges : Edit Unit := do
  (← (← get).definitions).forM fun d => Edit.setRange d none

/-! ## Inference -/

/-- The range of a small integer that a block computes, and whether it is an operation that was thought to
overflow and cannot. -/
def definitionRange (g : FlowGraph) : Inst → Except Fault (Range × Bool)
  | .constant c => return (c.smi?.elim .unknown .constant, false)
  | .constraint range inputs => do
    let value ← g.range (← itemAt inputs 0)
    return (← intersect g range value, false)
  | .binaryOp .binarySmiOp op l r overflow => do
    let (range, canOverflow) ← binaryRange g op l r
    return (range, overflow && canOverflow == some false)
  | .loadField _ _ recognized _ _ => return (lengthRange recognized, false)
  | .loadIndexed cls _ _ => return (elementRange cls, false)
  | _ => return (.unknown, false)

/-- The operation is known not to overflow. -/
def clearOverflow : Inst → Inst
  | .binaryOp opcode op l r _ => .binaryOp opcode op l r false
  | d => d

def noteChange : Analysis Unit := modify fun s => { s with changed := true }

def inferDefinition (d : InstId) : Analysis Unit := do
  let g ← getThe FlowGraph
  let (range, clears) ← definitionRange g (← g.inst d)
  if clears then
    Edit.modifyNode d fun n => { n with inst := clearOverflow n.inst }
    noteChange
  Edit.setRange d (some range)

/-- A phi of a loop header is an induction variable if it can be. -/
def inferPhi (b : BlockId) (isHeader : Bool) (phi : InstId) : Edit Unit := do
  let g ← get
  let induction ← if isHeader then inductionRange? g b phi else pure none
  match induction with
  | some range => Edit.setRange phi (some range)
  | none => Edit.setRange phi (some (← phiRange g phi))

def inferInitial (d : InstId) : Edit Unit := do
  match ← (← get).smiConstantOf d with
  | some v => Edit.setRange d (some (.constant v))
  | none => return

/-- Removes a bounds check that cannot fail. -/
def removeIfRedundant (check : InstId) : Analysis Unit := do
  let length ← arrayLength check
  if ← isRedundant (← getThe FlowGraph) check length then
    Edit.remove check
    noteChange

def inferInst (ctx : Context) (smis : List InstId) (i : InstId) : Analysis Unit := do
  if i ∈ smis then inferDefinition i
  else if ctx.config.boundsCheckElimination then
    if (← (← getThe FlowGraph).opcode i) = .checkArrayBound then removeIfRedundant i

def inferBlock (ctx : Context) (smis : List InstId) (b : BlockId) : Analysis Unit := do
  let g ← getThe FlowGraph
  if b = FlowGraph.graphEntry then
    g.initialDefinitions.forM fun d => (inferInitial d : Edit Unit)
  if ← g.isJoin b then
    let isHeader := (← g.block b).loop.isSome
    (← g.phis b).forM fun phi => do
      if (← (← getThe FlowGraph).isAlivePhi phi) && phi ∈ smis then inferPhi b isHeader phi
  (g.insts b).forM (inferInst ctx smis)

/-- Goes over the blocks on the stack and all they dominate. Each block is visited once. -/
def inferTree (ctx : Context) (smis : List InstId) : Nat → List BlockId → Analysis Unit
  | _, [] => return
  | 0, _ => throwThe Fault .unsettled
  | steps + 1, b :: stack => do
    inferBlock ctx smis b
    inferTree ctx smis steps ((← (← getThe FlowGraph).block b).dominated ++ stack)

/-! ## Removal of constraints -/

/-- A boundary without constraints and unplaced loads. -/
def settleBoundary (g : FlowGraph) (unwrapped : List (InstId × InstId)) (loads : List InstId) (s : Side)
    (b : Boundary) : Except Fault Boundary := do
  let b ← match b with
    | .symbol d offset =>
      match unwrapped.lookup d with
      | some value => ofDefinition g value offset
      | none => pure b
    | b => pure b
  match b with
  | .symbol d _ => if d ∈ loads then resolve g s b else return b
  | b => return b

def settleRange (unwrapped : List (InstId × InstId)) (loads : List InstId) (d : InstId) : Edit Unit := do
  let g ← get
  match ← g.range d with
  | none => return
  | some r =>
    let min ← settleBoundary g unwrapped loads .lower r.min
    let max ← settleBoundary g unwrapped loads .upper r.max
    Edit.setRange d (some ⟨min, max⟩)

/-- Every constraint gives way to the value it constrains. -/
def removeConstraints (constraints loads : List InstId) : Edit Unit := do
  let g ← get
  let unwrapped ← constraints.mapM fun c => do return (c, ← unwrap g c)
  unwrapped.forM fun (c, d) => Edit.replaceUses c d
  constraints.forM Edit.remove
  (← (← get).definitions).forM (settleRange unwrapped loads)

/-- Forgets the ranges of an earlier analysis and inserts constraints. The result are the small integers that were there
before. -/
def placeConstraints : Analysis (List InstId) := do
  clearRanges
  let g ← getThe FlowGraph
  let checks ← g.reversePostorder.mapM fun b => (checksIn g b : Except Fault (List InstId))
  let values ← g.reversePostorder.mapM fun b => (valuesIn g b : Except Fault (List InstId))
  insertConstraints checks.flatten values.flatten
  return values.flatten

/-- Constraints are inserted, ranges inferred, and the constraints removed. -/
def analyze (ctx : Context) : Analysis Unit := do
  let values ← placeConstraints
  let smis := values ++ (← get).constraints
  inferTree ctx smis ((← getThe FlowGraph).blocks.size + 1) [FlowGraph.graphEntry]
  removeConstraints (← get).constraints (← get).lengthLoads

end Ranges

/-- Analyses the ranges of small integers and removes what they show to be redundant. -/
def analyzeRanges (ctx : Context) : Edit Bool := do
  discard Flow.computeLoops
  let ((), s) ← (Ranges.analyze ctx).run {}
  return s.changed

end Midend
