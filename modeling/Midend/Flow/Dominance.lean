import Midend.Flow.Order

/-! # Dominators

A block `a` dominates `b` when every path from the graph entry to `b` passes `a`. Immediate dominators are
found on preorder numbers, with the predecessor lists of the last discovery. First come the semidominators,
from the greatest number to the smallest: the semidominator of `b` is the smallest number from which a path
leads to `b` over numbers greater than `b`. The immediate dominator is then the first block above the one
that `b` was discovered from that is not greater than the semidominator.
-/

namespace Midend.Flow

/-- The predecessors of the discovered blocks, as preorder numbers. -/
def predNumbers (g : FlowGraph) : Except Fault (Array (List Nat)) := do
  let rows ← g.preorder.mapM fun b => do
    (← g.preds b).filterMapM fun p => return (← g.block p).preorderNumber
  return rows.toArray

/-! ## Semidominators -/

/-- The forest of the numbers that have been treated. -/
structure Forest where
  /-- The semidominator of each number that has been treated, every other number itself. -/
  semi : Array Nat
  /-- What a number is linked to, at first the one that it was discovered from. -/
  link : Array (Option Nat)
  /-- The least semidominator on the way from a number to its link. -/
  label : Array Nat

namespace Forest

/-- Every number for itself. -/
def start (parents : Array (Option Nat)) : Forest where
  semi := Array.range parents.size
  link := parents
  label := Array.range parents.size

def semiAt (f : Forest) (x : Nat) : Nat := f.semi.getD x 0

def linkAt (f : Forest) (x : Nat) : Option Nat := (f.link[x]?).join

def labelAt (f : Forest) (x : Nat) : Nat := f.label.getD x 0

/-- Links `x` to what its link is linked to. -/
def skip (f : Forest) (x y : Nat) : Forest :=
  { f with
    link := f.link.setIfInBounds x (f.linkAt y)
    label := f.label.modify x (min · (f.labelAt y)) }

/-- Shortens the way up from `x`, so that its link is not greater than `low`. Links have smaller numbers, so
`x` steps are enough. -/
def compress (low : Nat) : Nat → Nat → Forest → Forest
  | 0, _, f => f
  | steps + 1, x, f =>
    match f.linkAt x with
    | some y => if low < y then (f.compress low steps y).skip x y else f
    | none => f

/-- Takes one predecessor `p` of `b` into account. Where it is greater than `b`, a path from the least
semidominator on the way up goes over it. -/
def enter (b : Nat) (f : Forest) (p : Nat) : Forest :=
  let f := if b < p then f.compress b p p else f
  let best := if b < p then f.labelAt p else p
  { f with semi := f.semi.modify b (min · (f.semiAt best)) }

/-- Finds the semidominator of `b`. -/
def treat (preds : Array (List Nat)) (f : Forest) (b : Nat) : Forest :=
  let f := (preds.getD b []).foldl (enter b) f
  { f with label := f.label.setIfInBounds b (f.semiAt b) }

end Forest

/-- All numbers but the entry, in ascending order. -/
def numbersUp (size : Nat) : List Nat := List.range' 1 (size - 1)

/-- The semidominators of all numbers. -/
def semidominators (preds : Array (List Nat)) (parents : Array (Option Nat)) : Forest :=
  (numbersUp preds.size).reverse.foldl (Forest.treat preds) (Forest.start parents)

/-! ## Immediate dominators -/

/-- The first of `d` and the blocks above it that is not greater than `semi`. -/
def notAbove (tree : Array (Option Nat)) (semi : Nat) : Nat → Nat → Nat
  | 0, d => d
  | steps + 1, d => if semi < d then notAbove tree semi steps (((tree[d]?).join).getD 0) else d

/-- Moves `b` to its place in the tree. All smaller numbers have theirs. -/
def settle (f : Forest) (tree : Array (Option Nat)) (b : Nat) : Array (Option Nat) :=
  tree.modify b (Option.map fun p => notAbove tree (f.semiAt b) p p)

/-- The immediate dominators of all blocks; the entry has none. -/
def dominatorTree (preds : Array (List Nat)) (parents : Array (Option Nat)) : Array (Option Nat) :=
  (numbersUp preds.size).foldl (settle (semidominators preds parents)) parents

/-! ## Frontiers -/

/-- `r` and the blocks above it in the dominator tree, up to `stop` and without it. -/
def climb (idoms : Array (Option Nat)) (stop : Option Nat) : Nat → Nat → List Nat
  | 0, _ => []
  | steps + 1, r =>
    if some r = stop then []
    else r :: match (idoms[r]?).join with
      | some d => climb idoms stop steps d
      | none => []

/-- The blocks that have `b` in their frontier: those between a predecessor of a meeting point `b` and the
dominator of `b`. -/
def frontierOwners (preds : Array (List Nat)) (idoms : Array (Option Nat)) (b : Nat) : List Nat :=
  let ps := preds.getD b []
  if ps.length ≤ 1 then [] else ps.flatMap (climb idoms ((idoms[b]?).join) (preds.size + 1))

/-- At each number, the numbers of its dominance frontier in ascending order. -/
def frontiers (preds : Array (List Nat)) (idoms : Array (Option Nat)) : Array (List Nat) :=
  let owners := (Array.range preds.size).map (frontierOwners preds idoms)
  (Array.range preds.size).map fun x =>
    (List.range preds.size).filter fun b => x ∈ owners.getD b []

/-- The block of a preorder number. -/
def blockAt (g : FlowGraph) (n : Nat) : Except Fault BlockId := itemAt g.preorder n

/-- Records `d` as the immediate dominator of `b`. -/
def setDominator (b : BlockId) (d : Nat) : Edit Unit := do
  let dom ← blockAt (← get) d
  Edit.modifyBlock b fun k => { k with dominator := some dom }
  Edit.modifyBlock dom fun k => { k with dominated := k.dominated ++ [b] }

/-- Records the dominator tree in the discovered blocks and returns the dominance frontiers. -/
def computeDominators : Edit (Array (List Nat)) := do
  let g ← get
  let preds ← predNumbers g
  let doms := dominatorTree preds g.parents
  g.preorder.forM fun b =>
    Edit.modifyBlock b fun k => { k with dominator := none, dominated := [] }
  g.preorder.zipIdx.forM fun (b, n) =>
    match (doms[n]?).join with
    | some d => setDominator b d
    | none => pure ()
  return frontiers preds doms

end Midend.Flow
