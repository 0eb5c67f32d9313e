import Midend.Graph.Edit

/-! # The order of blocks

Blocks are discovered by a depth-first walk from the graph entry that takes the successors of a block from
the last to the first, so that the first successor of a branch comes first in reverse postorder. The walk
rebuilds the predecessor lists, and records for each block the one it was discovered from and the slots it
stores to.
-/

namespace Midend.Flow

/-- A predecessor list with one more edge; predecessors are in the order of their keys. -/
def withPred (preds : List BlockId) (p : BlockId) : List BlockId :=
  preds.takeWhile (·.index ≤ p.index) ++ p :: preds.dropWhile (·.index ≤ p.index)

def addPred (b p : BlockId) : Edit Unit :=
  Edit.modifyBlock b fun k => { k with preds := withPred k.preds p }

/-- The slots that a list of instructions stores to. A set of slots knows the low 32 bits of a slot. -/
def assignedSlots (g : FlowGraph) (is : List InstId) : Except Fault NumberSet := do
  let empty ← NumberSet.ofCapacity ((← g.variableCount) % 0x100000000)
  is.foldlM (fun slots i => do
    match ← g.inst i with
    | .storeLocal slot _ => slots.insert (slot % 0x100000000)
    | _ => return slots) empty

/-- Numbers a block on its first discovery. -/
def visitBlock (b : BlockId) (pred : Option BlockId) : Edit Unit := do
  Edit.modifyBlock b fun k => { k with preds := [] }
  match pred with
  | some p => addPred b p
  | none => pure ()
  let g ← get
  let parent ← match pred with
    | some p => pure (← g.block p).preorderNumber
    | none => pure none
  let slots ← assignedSlots g (g.insts b)
  Edit.modifyBlock b fun k => { k with preorderNumber := some g.preorder.length }
  modify fun g => { g with
    preorder := g.preorder ++ [b]
    parents := g.parents.push parent
    assigned := g.assigned.push slots }

/-- Closes a block once all its successors have been taken. -/
def finishBlock (b : BlockId) : Edit Unit := do
  let g ← get
  Edit.modifyBlock b fun k => { k with postorderNumber := some g.postorder.length }
  modify fun g => { g with postorder := g.postorder ++ [b] }

/-- The walk: every open block with the successors it has still to take. Each step takes one successor or
closes one block, so `steps` bounds their number. -/
def walk : Nat → List (BlockId × List BlockId) → Edit Unit
  | _, [] => pure ()
  | 0, _ => throw .unsettled
  | steps + 1, (b, []) :: stack => do
    finishBlock b
    walk steps stack
  | steps + 1, (b, succ :: rest) :: stack => do
    let g ← get
    if (← g.block succ).preorderNumber.isSome then
      addPred succ b
      walk steps ((b, rest) :: stack)
    else
      visitBlock succ (some b)
      let succs ← (← get).succs succ
      walk steps ((succ, succs.reverse) :: (b, rest) :: stack)

/-- Enough steps for any walk: each block is closed once, and takes two successors at most, the graph entry
one for each entry. -/
def walkBound (g : FlowGraph) : Nat := 3 * g.blocks.size + g.catchEntries.length + 1

/-- Forgets the orders of an earlier discovery. -/
def forgetOrder : Edit Unit :=
  modify fun g => { g with
    preorder := [], postorder := [], parents := #[], assigned := #[]
    blocks := g.blocks.map fun k => { k with preorderNumber := none, postorderNumber := none } }

/-- Numbers the blocks that can be reached and rebuilds their predecessor lists. -/
def discover : Edit Unit := do
  forgetOrder
  visitBlock FlowGraph.graphEntry none
  let g ← get
  walk (walkBound g) [(FlowGraph.graphEntry, (← g.succs FlowGraph.graphEntry).reverse)]

end Midend.Flow
