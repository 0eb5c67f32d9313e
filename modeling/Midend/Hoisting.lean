import Midend.Context
import Midend.Flow.Loops

/-! # Loop-invariant instructions

Moves instructions whose inputs are all defined outside a loop in front of it, to the end of its pre-header.
Loops without a pre-header are left alone.
-/

namespace Midend.Hoisting

/-- The blocks of the loop with the given header. -/
def loopBlocks (g : FlowGraph) (header : BlockId) : Except Fault (List BlockId) := do
  ((← g.block header).loop.getD []).mapM (Flow.blockAt g)

/-- Something in the blocks may write memory. -/
def mayWrite (g : FlowGraph) (blocks : List BlockId) : Except Fault Bool :=
  blocks.anyM fun b => (g.insts b).anyM fun i => return (← g.inst i).hasSideEffect

/-- The instruction computes the same wherever its inputs are at hand. A mutable field may be read earlier
as long as nothing is written in between. -/
def isMovable (written : Bool) (d : Inst) : Except Fault Bool := do
  if d.opcode = .pushArgument || d.isTypeAssertion then return false
  match d with
  | .loadField _ _ _ false _ => return !written
  | _ => return !(← d.affectedBySideEffect)

/-- All inputs are at hand at the end of the pre-header. -/
def isInvariant (g : FlowGraph) (preHeader : BlockId) (d : Inst) : Except Fault Bool :=
  d.args.allM fun input => do
    match ← g.instBlock input with
    | some b => g.dominates b preHeader
    | none => return false

/-- Moves an instruction in front of the pre-header's goto, where it resumes from then on if it gives up. -/
def hoist (i : InstId) (preHeader : BlockId) : Edit Bool := do
  let g ← get
  match g.lastInst preHeader with
  | none => return false
  | some last =>
    if (← g.opcode last) ≠ .goto then return false
    let resumes := (← g.inst i).canDeoptimize
    if resumes && (← g.env last).isNone then return false
    Edit.moveBefore i last
    if resumes then Edit.copyDeoptTarget i last
    return true

/-- The one position, of those given, at which a phi may take something else than a small integer. What it
takes there has to be of any class. -/
def soleOtherInput? (g : FlowGraph) (phi : InstId) : List Nat → Option Nat → Except Fault (Option Nat)
  | [], found => return found
  | k :: rest, found => do
    let cls ← g.useClass phi k
    if cls = .smi then soleOtherInput? g phi rest found
    else if cls = .dynamic && found.isNone then soleOtherInput? g phi rest (some k)
    else return none

/-- A check of a loop phi whose only input that may be no small integer comes from the pre-header tests that
input there instead. The phi then is a small integer. -/
def hoistThroughPhi (check : InstId) (header preHeader : BlockId) : Edit Bool := do
  let g ← get
  let phi ← g.arg check 0
  match ← g.instBlock phi with
  | none => return false
  | some b =>
    if !(← g.loopContains header b) then return false
    if (← g.classOf phi) = .smi then
      Edit.remove check
      return true
    match ← soleOtherInput? g phi (List.range (← g.args phi).length) none with
    | none => return false
    | some k =>
      if (← g.preds b)[k]? ≠ some preHeader then return false
      if !(← hoist check preHeader) then return false
      Edit.setArg check 0 (← (← get).arg phi k)
      discard <| Edit.setClass phi .smi
      return true

def visit (header preHeader : BlockId) (written : Bool) (i : InstId) : Edit Bool := do
  let g ← get
  let d ← g.inst i
  if !(← isMovable written d) then return false
  if ← isInvariant g preHeader d then hoist i preHeader
  else if d.opcode = .checkSmi then
    if (← g.opcode (← itemAt d.args 0)) = .phi then hoistThroughPhi i header preHeader
    else return false
  else return false

def hoistLoop (header preHeader : BlockId) : Edit Bool := do
  let g ← get
  let blocks ← loopBlocks g header
  let written ← mayWrite g blocks
  anyChange blocks fun b => do
    anyChange ((← get).insts b) (visit header preHeader written)

end Hoisting

/-- Moves loop-invariant instructions out of their loops, the innermost loops first. -/
def hoistInvariants : Edit Bool := do
  anyChange (← Flow.computeLoops) fun header => do
    match ← (← get).preHeader? header with
    | some preHeader => Hoisting.hoistLoop header preHeader
    | none => return false

end Midend
