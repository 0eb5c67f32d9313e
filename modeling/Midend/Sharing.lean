import Midend.Context

/-! # Common subexpressions

Walks the dominator tree with the values computed so far. An instruction that computes one of them again
gives way to the instruction that computed it first.
-/

namespace Midend.Sharing

/-- The values at hand and the instructions that compute them. -/
abbrev Values := List (ValueKey × InstId)

/-- Looks at one instruction. Returns the values at hand behind it, and whether it gave way. -/
def shareInst (values : Values) (i : InstId) : Edit (Values × Bool) := do
  let d ← (← get).inst i
  if (← d.affectedBySideEffect) || d.isTerminator then return (values, false)
  let key ← d.valueKey
  match values.lookup key with
  | some existing =>
    Edit.replaceByExisting i existing
    return (values, true)
  | none => return ((key, i) :: values, false)

def shareBlock (values : Values) (b : BlockId) : Edit (Values × Bool) := do
  ((← get).insts b).foldlM (fun (values, changed) i => do
    let (values, shared) ← shareInst values i
    return (values, changed || shared)) (values, false)

/-- Goes over the blocks on the stack and all they dominate, every block with the values of its dominator.
Each block is visited once. -/
def shareTree : Nat → List (BlockId × Values) → Edit Bool
  | _, [] => return false
  | 0, _ => throw .unsettled
  | steps + 1, (b, values) :: stack => do
    let (values, here) ← shareBlock values b
    let children := (← (← get).block b).dominated.reverse
    let below ← shareTree steps (children.map (·, values) ++ stack)
    return here || below

end Sharing

/-- Shares values that do not depend on memory. -/
def shareValues : Edit Bool := do
  Sharing.shareTree ((← get).blocks.size + 1) [(FlowGraph.graphEntry, [])]

end Midend
