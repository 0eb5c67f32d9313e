import Midend.Ssa.Renaming

/-! # SSA form

Brings an unoptimized graph into SSA form: blocks are discovered, phis placed, uses renamed, the phis that
nothing needs removed and the use lists built.
-/

namespace Midend.Ssa

/-- The phis whose inputs are still to be looked at, and all that ever waited for it. -/
structure Spread where
  waiting : List InstId
  seen : List InstId

/-- A dead phi that a live one reads comes to life too. -/
def reviveInput (s : Spread) (d : InstId) : Edit Spread := do
  let g ← get
  if (← g.opcode d) == .phi && !(← g.isAlivePhi d) && d ∉ s.seen then
    Edit.revivePhi d
    return ⟨d :: s.waiting, d :: s.seen⟩
  return s

/-- Spreads life from the waiting phis to the phis they read. Each of these waits once. -/
def spreadLife : Nat → Spread → Edit Unit
  | _, ⟨[], _⟩ => pure ()
  | 0, _ => throw .unsettled
  | steps + 1, ⟨phi :: waiting, seen⟩ => do
    let s ← (← (← get).args phi).foldlM reviveInput ⟨waiting, seen⟩
    spreadLife steps s

def markLivePhis (live : List InstId) : Edit Unit := do
  spreadLife (live.length + (← get).nodes.size) ⟨live, live⟩

/-- Removes the phis that no load reads. Environments that mention one see the null constant. -/
def removeDeadPhis : Edit Unit := do
  let null ← Edit.getConstant .null
  (← get).preorder.forM fun b => do
    (← (← get).phis b).forM fun phi => do
      if !(← (← get).isAlivePhi phi) then
        Edit.replaceUses phi null
        Edit.removePhi phi

/-- Brings a graph into SSA form. -/
def construct : Construct Unit := do
  if !(← getThe FlowGraph).catchEntries.isEmpty then throw .catchEntry
  Flow.discover
  checkEdgeSplitForm
  let frontier ← Flow.computeDominators
  insertPhis frontier
  let live ← rename
  markLivePhis live
  Edit.computeUseLists
  removeDeadPhis

end Midend.Ssa
