import Midend.Flow.Dominance

/-! # Placing phis

SSA form is only built for graphs in edge-split form: a goto leads to a join and a branch to blocks that
nothing else leads to. Phis for a local variable are placed at the iterated dominance frontier of the blocks
that store to it.
-/

namespace Midend

/-- Edits that may give the method up. The graph stays as it is at that point. -/
abbrev Construct := ExceptT Bailout Edit

namespace Ssa

def giveUp {α : Type} (d : Defect) : Construct α := throw (.malformedGraph d)

/-- The block ends in a terminator and its edges are split. -/
def checkSplit (b : BlockId) : Construct Unit := do
  let g ← getThe FlowGraph
  match g.lastInst b with
  | none => giveUp (.unterminated b)
  | some last =>
    let d ← g.inst last
    if !d.isTerminator then giveUp (.unterminated b)
    let expected : BlockKind := if d.opcode = .branch then .target else .join
    d.successors.forM fun s => do
      if (← g.kind s) ≠ expected then giveUp (.unsplitEdge b s)

def checkEdgeSplitForm : Construct Unit := do
  ((← getThe FlowGraph).preorder.filter (· != FlowGraph.graphEntry)).forM checkSplit

/-- What is kept of the blocks, by preorder number, from one variable to the next. A mark is the last variable for which
the block received a phi or went onto the worklist, and −1 before the first. Marks are not reset. -/
structure Marks where
  placed : Array Int
  queued : Array Int
  /-- The next block to look at comes first. -/
  worklist : List Nat := []

namespace Marks

def start (blocks : Nat) : Marks where
  placed := .replicate blocks (-1)
  queued := .replicate blocks (-1)

def place (var : Nat) (m : Marks) (n : Nat) : Marks := { m with placed := m.placed.setIfInBounds n var }

def queue (var : Nat) (m : Marks) (n : Nat) : Marks :=
  { m with queued := m.queued.setIfInBounds n var, worklist := n :: m.worklist }

end Marks

/-- Gives a frontier block a phi for the variable, unless it is marked for it or for a later one. -/
def placePhi (var : Nat) (m : Marks) (n : Nat) : Construct Marks := do
  if (var : Int) ≤ m.placed.getD n (-1) then return m
  let g ← getThe FlowGraph
  let b ← Flow.blockAt g n
  if !(← g.isJoin b) then giveUp (.notJoin b)
  discard <| Edit.addPhi b (some var) (← g.preds b).length
  let m := m.place var n
  if m.queued.getD n (-1) < (var : Int) then return m.queue var n
  return m

/-- Looks at the frontiers of the blocks on the worklist. Each block waits once for a variable. -/
def placeAll (frontier : Array (List Nat)) (var : Nat) : Nat → Marks → Construct Marks
  | 0, m => pure m
  | steps + 1, m =>
    match m.worklist with
    | [] => pure m
    | n :: rest => do
      let m ← (frontier.getD n []).foldlM (placePhi var) { m with worklist := rest }
      placeAll frontier var steps m

/-- Places the phis of one variable, which blocks that store to it have recorded by its low bits. -/
def placeVariable (frontier : Array (List Nat)) (m : Marks) (var : Nat) : Construct Marks := do
  let g ← getThe FlowGraph
  let blocks := g.preorder.length
  let stores := (List.range blocks).filter fun n => (g.assigned.getD n {}).contains (var % 0x100000000)
  placeAll frontier var (blocks + 1) (stores.foldl (Marks.queue var) m)

/-- Places dead phis without inputs for all variables. -/
def insertPhis (frontier : Array (List Nat)) : Construct Unit := do
  let g ← getThe FlowGraph
  discard <| (List.range (← g.variableCount)).foldlM (placeVariable frontier) (.start g.preorder.length)

end Ssa

end Midend
