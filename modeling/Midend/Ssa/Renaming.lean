import Midend.Ssa.Phis

/-! # Renaming

Walks the dominator tree with the definitions that the local variables and the expression stack hold at each
point. Every use is redirected to its reaching definition, loads and stores of locals are taken out, and
instructions that the unoptimized code may resume at get their environment.
-/

namespace Midend.Ssa

/-- The definitions held by the local variables, then by the expression stack with its top at the end. -/
abbrev Frame := List InstId

/-- What renaming has found out so far. -/
structure Names where
  /-- The values of the loads and stores of locals that were renamed. -/
  resolved : List (InstId × InstId) := []
  /-- The phis that a load reads. -/
  live : List InstId := []

abbrev Rename := StateT Names Construct

def renameGiveUp {α : Type} (d : Defect) : Rename α := throwThe Bailout (.malformedGraph d)

/-- Pops the top of the expression stack, which lies above the local variables. -/
def pop (slots : Nat) (b : BlockId) (frame : Frame) : Rename (InstId × Frame) := do
  match frame.getLast? with
  | some top =>
    if frame.length ≤ slots then throwThe Bailout (.stackUnderflow b)
    return (top, frame.dropLast)
  | none => throwThe Bailout (.stackUnderflow b)

/-- The frame with `v` in slot `k`. -/
def setSlot (frame : Frame) (k : Nat) (v : InstId) : Except Fault Frame :=
  if k < frame.length then .ok (frame.set k v) else .error .outOfRange

/-- Resuming at `i` finds what `frame` holds. -/
def attachEnv (i : InstId) (frame : Frame) : Edit Unit := do
  let fixed := (← get).parameterCount
  Edit.modifyNode i fun n => { n with env := some ⟨frame, fixed⟩ }

/-- The local variable that a phi stands for. -/
def phiSlot (g : FlowGraph) (phi : InstId) : Except Fault Nat := do
  match ← g.inst phi with
  | .phi (some slot) _ _ _ => return slot
  | _ => throw (.notVariable phi)

/-- Pops input `k` of `i`, which has to be what lies on top of the stack. Reads and writes of locals are
replaced by the value they stand for. -/
def popInput (b : BlockId) (i : InstId) (frame : Frame) (k : Nat) : Rename Frame := do
  let g ← getThe FlowGraph
  let (reaching, frame) ← pop (← g.variableCount) b frame
  let input ← g.arg i k
  let opcode ← g.opcode input
  let isLocal := opcode == .loadLocal || opcode == .storeLocal
  let names ← get
  let expected := if isLocal then names.resolved.lookup input else some input
  if expected ≠ some reaching then renameGiveUp (.inputMismatch k i input reaching)
  if isLocal then
    if g.isPlaced input then Edit.remove input
    Edit.setArgQuietly i k reaching
  return frame

/-- Pops a pushed argument of `i`. -/
def popArgument (b : BlockId) (i : InstId) (frame : Frame) (argument : InstId) : Rename Frame := do
  let (reaching, frame) ← pop (← (← getThe FlowGraph).variableCount) b frame
  if reaching ≠ argument then renameGiveUp (.argumentMismatch i argument reaching)
  return frame

/-- A local access evaluates to `v`: it leaves it on the stack if it is used, else it goes away. -/
def leaveLocal (i v : InstId) (isUsed : Bool) (frame : Frame) : Rename Frame := do
  modify fun s => { s with resolved := (i, v) :: s.resolved }
  if isUsed then return frame ++ [v]
  Edit.remove i
  return frame

/-- What an instruction does to the frame once its operands are popped. -/
def leaveResult (i : InstId) (frame : Frame) : Rename Frame := do
  let g ← getThe FlowGraph
  let n ← g.node i
  match n.inst with
  | .storeLocal slot value =>
    if (← g.variableCount) ≤ slot then throwThe Bailout (.unresolvedLocal slot)
    leaveLocal i value n.isUsed (← setSlot frame slot value)
  | .loadLocal slot =>
    if (← g.variableCount) ≤ slot then throwThe Bailout (.unresolvedLocal slot)
    let value ← itemAt frame slot
    if (← g.opcode value) == .phi && !(← g.isAlivePhi value) then
      Edit.revivePhi value
      modify fun s => { s with live := value :: s.live }
    leaveLocal i value n.isUsed frame
  | d =>
    if d.opcode = .pushArgument then return frame ++ [i]
    if d.isDefinition && n.isUsed then
      discard <| Edit.allocSsaIndex i
      return frame ++ [i]
    return frame

/-- An instruction that may give up resumes with its operands still on the stack. A branch that cannot give
up still marks the point at which the block is left. -/
def renameInst (b : BlockId) (frame : Frame) (i : InstId) : Rename Frame := do
  let d ← (← getThe FlowGraph).inst i
  if d.canDeoptimize || d.opcode == .goto then attachEnv i frame
  let frame ← (List.range d.args.length).reverse.foldlM (popInput b i) frame
  let frame ← d.arguments.reverse.foldlM (popArgument b i) frame
  if d.opcode = .branch then
    if (← (← getThe FlowGraph).env i).isNone then attachEnv i frame
  leaveResult i frame

/-- A phi takes over the variable it stands for. -/
def enterPhi (frame : Frame) (phi : InstId) : Rename Frame := do
  let frame ← setSlot frame (← phiSlot (← getThe FlowGraph) phi) phi
  discard <| Edit.allocSsaIndex phi
  return frame

/-- Fills the phi inputs that flow along the goto at the end of a block. -/
def fillPhis (b : BlockId) (frame : Frame) : Rename Unit := do
  let g ← getThe FlowGraph
  match g.lastInst b with
  | none => pure ()
  | some last =>
    match ← g.inst last with
    | .goto target =>
      match ← g.predIndex target b with
      | none => renameGiveUp (.missingPredecessor b target)
      | some k =>
        (← g.phis target).forM fun phi => do
          let v ← itemAt frame (← phiSlot g phi)
          Edit.setArgQuietly phi k v
    | _ => pure ()

def renameBlock (b : BlockId) (frame : Frame) : Rename Frame := do
  let frame ← (← (← getThe FlowGraph).phis b).foldlM enterPhi frame
  let frame ← ((← getThe FlowGraph).insts b).foldlM (renameInst b) frame
  fillPhis b frame
  return frame

/-- Renames the blocks on the stack and all they dominate, every block with the frame at the end of its
dominator. Each block is renamed once. -/
def renameTree : Nat → List (BlockId × Frame) → Rename Unit
  | _, [] => pure ()
  | 0, _ => throwThe Fault .unsettled
  | steps + 1, (b, frame) :: stack => do
    let frame ← renameBlock b frame
    let children := (← (← getThe FlowGraph).block b).dominated
    renameTree steps (children.map (·, frame) ++ stack)

/-- A new initial definition for a parameter. -/
def addParameter (k : Nat) : Edit InstId := do
  let p ← Edit.addInitialDefinition (.parameter k)
  discard <| Edit.allocSsaIndex p
  return p

/-- Renames the whole graph and returns the phis that loads read. -/
def rename : Construct (List InstId) := do
  let null ← Edit.getConstant .null
  let g ← getThe FlowGraph
  let parameters ← (List.range g.parameterCount).mapM fun k => (addParameter k : Construct InstId)
  let frame := parameters ++ List.replicate g.localCount null
  let ((), names) ← StateT.run (renameTree (g.blocks.size + 1) [(FlowGraph.normalEntry, frame)]) {}
  return names.live

end Midend.Ssa
