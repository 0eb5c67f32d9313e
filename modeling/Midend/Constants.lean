import Midend.Constants.Analysis
import Midend.Context
import Midend.Flow.Dominance

/-! # Constant propagation

Puts constants in the place of values that are known, drops the blocks that cannot be reached, and turns
branches with one way left into jumps.
-/

namespace Midend.Constants

/-! ## Constants -/

/-- Instructions that stay although their value is known. -/
def staysInPlace : Opcode → Bool
  | .constant | .pushArgument | .storeField | .storeIndexed => true
  | _ => false

/-- The constant that is made in the place of a known value, if that costs nothing. -/
def cheapValue? (f : Facts) (i : InstId) : Option Constant :=
  match f.value i with
  | .known c => if c.isCheap then some c else none
  | _ => none

/-- Makes the known value of an instruction a constant. -/
def rematerialize (f : Facts) (i : InstId) : Edit Bool := do
  match cheapValue? f i with
  | none => return false
  | some c =>
    if staysInPlace (← (← get).opcode i) then return false
    let constant ← Edit.addInst (.constant c)
    Edit.insertBefore i constant
    Edit.ensureSsaIndex constant i
    Edit.replaceUses i constant
    Edit.remove i
    return true

def rematerializeAll (f : Facts) (blocks : List BlockId) : Edit Bool :=
  anyChange (blocks.filter fun b => f.isReachable b && b != FlowGraph.graphEntry) fun b => do
    anyChange ((← get).insts b) (rematerialize f)

/-! ## Dead edges -/

/-- Keeps the inputs at the given positions. Use lists are built anew later. -/
def keepInputs (phi : InstId) (positions : List Nat) : Edit Unit := do
  match ← (← get).inst phi with
  | .phi slot inputs alive representation =>
    let kept ← positions.mapM fun k => (itemAt inputs k : Except Fault InstId)
    Edit.setInst phi (.phi slot kept alive representation)
  | _ => pure ()

/-- Drops the phi inputs of predecessors that cannot be reached, and returns the phis that have at most one
input left. The remaining predecessors keep their order. -/
def compactPhis (f : Facts) (b : BlockId) : Edit (List InstId) := do
  let g ← get
  if !(← g.isJoin b) then return []
  let preds ← g.preds b
  let live := (preds.zipIdx.filter fun (p, _) => f.isReachable p).map (·.2)
  (← g.phis b).filterM fun phi => do
    if live.length < preds.length then keepInputs phi live
    return (← (← get).args phi).length ≤ 1

/-- The only successor of a branch that can be reached. -/
def onlyWay? (f : Facts) (onTrue onFalse : BlockId) : Option BlockId :=
  match f.isReachable onTrue, f.isReachable onFalse with
  | true, false => some onTrue
  | false, true => some onFalse
  | _, _ => none

/-- Puts a jump in the place of a branch. It resumes where the branch does, so that what is moved in front
of it can still give up. -/
def replaceByJump (b : BlockId) (branch : InstId) (target : BlockId) : Edit Unit := do
  let jump ← Edit.addInst (.goto target)
  Edit.copyDeoptTarget jump branch
  Edit.remove branch
  Edit.append b jump
  Edit.modifyBlock target fun k => { k with kind := .join }

/-- Turns the branch at the end of a block into a jump if one way is left. -/
def straighten (f : Facts) (b : BlockId) : Edit Bool := do
  let g ← get
  match g.lastInst b with
  | none => return false
  | some last =>
    let d ← g.inst last
    if d.opcode ≠ .branch then return false
    match onlyWay? f (← itemAt d.successors 0) (← itemAt d.successors 1) with
    | some target =>
      replaceByJump b last target
      return true
    | none => return false

/-- Cuts the dead edges of the blocks. Returns whether anything changed, and the phis that became
redundant. -/
def cutEdges (f : Facts) (blocks : List BlockId) : Edit (Bool × List InstId) :=
  blocks.foldlM (fun (changed, redundant) b => do
    if !f.isReachable b then return (true, redundant)
    let phis ← compactPhis f b
    let straightened ← straighten f b
    return (changed || straightened, redundant ++ phis)) (false, [])

/-- A phi of one input gives way to it. -/
def dropRedundant (phi : InstId) : Edit Bool := do
  match (← (← get).args phi).head? with
  | none => return false
  | some input =>
    Edit.replaceUses phi input
    Edit.removePhi phi
    return true

def transform (f : Facts) : Edit Bool := do
  let blocks := (← get).reversePostorder
  let made ← rematerializeAll f blocks
  let (cut, redundant) ← cutEdges f blocks
  Flow.discover
  discard Flow.computeDominators
  Edit.computeUseLists
  let dropped ← anyChange redundant dropRedundant
  return made || cut || dropped

end Constants

/-- Propagates constants along the edges that can be taken. -/
def propagateConstants : Edit Bool := do
  let facts ← Constants.analyze (← get)
  Constants.transform facts

end Midend
