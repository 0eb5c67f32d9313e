import Midend.Flow.Dominance

/-! # Natural loops

A predecessor of a block that the block dominates closes a loop. The loop holds its header and every block
from which such a predecessor can be reached without passing the header.
-/

namespace Midend.Flow

/-! ## Reachability -/

/-- The numbers in `seen` and those found from `todo`, each expanded once. Every step takes one entry off
`todo`, and `steps` bounds their number. -/
def explore (next : Nat → List Nat) : Nat → List Nat → List Nat → List Nat
  | 0, _, seen => seen
  | _, [], seen => seen
  | steps + 1, x :: todo, seen =>
    if x ∈ seen then explore next steps todo seen
    else explore next steps (next x ++ todo) (x :: seen)

/-- Everything that can be reached from `start` among the numbers below `size`. An entry is taken for the
start and for each neighbour of each number. -/
def reachable (size : Nat) (next : Nat → List Nat) (start : Nat) : List Nat :=
  let edges := (List.range size).foldl (fun n x => n + (next x).length) 0
  explore next (edges + 1) [start] []

/-- The predecessors of `x`, none of them `a`. -/
def predsAvoiding (preds : Array (List Nat)) (a x : Nat) : List Nat :=
  (preds.getD x []).filter (· != a)

/-! ## Loops -/

/-- The blocks of a loop, given its header and the sources of its back edges. -/
def loopBody (preds : Array (List Nat)) (header : Nat) (sources : List Nat) : List Nat :=
  let bodies := (sources.filter (· != header)).map (reachable preds.size (predsAvoiding preds header))
  (List.range preds.size).filter fun n => n = header || bodies.any (n ∈ ·)

/-- The predecessors that a block dominates. -/
def backEdges (g : FlowGraph) (b : BlockId) : Except Fault (List BlockId) := do
  (← g.preds b).filterM (g.dominates b)

/-- The loop that a block is the header of. -/
def loopAt? (g : FlowGraph) (preds : Array (List Nat)) (b : BlockId) :
    Except Fault (Option (List Nat)) := do
  let sources ← (← backEdges g b).filterMapM fun p => return (← g.block p).preorderNumber
  match (← g.block b).preorderNumber, sources with
  | some header, _ :: _ => return some (loopBody preds header sources)
  | _, _ => return none

/-- Records the loops of the discovered blocks and returns their headers in postorder. -/
def computeLoops : Edit (List BlockId) := do
  let g ← get
  let preds ← predNumbers g
  g.postorder.filterM fun b => do
    let loop ← loopAt? g preds b
    Edit.modifyBlock b fun k => { k with loop }
    return loop.isSome

end Midend.Flow
