import Midend.Context

/-! # Small integers

Proves values to be small integers. A walk of the dominator tree marks the uses, in branches and phis, of
values that were checked on the way. A phi all of whose inputs are small integers is one itself; around
loops this is assumed first and taken back where it fails.
-/

namespace Midend.SmallIntegers

/-- The phis that a checked value flows into, and whether a use was marked. -/
structure Progress where
  phis : List InstId := []
  changed : Bool := false

abbrev Walk := StateT Progress Edit

/-- A small integer reaches the use. -/
def markUse (u : Use) : Walk Unit := do
  if (← getThe FlowGraph).reachingClass? u ≠ some .smi then
    Edit.setReaching u .smi
    modify fun p => { p with changed := true }

/-- The list with `a` at its end, unless it is there already. -/
def enqueue (a : InstId) (list : List InstId) : List InstId := if a ∈ list then list else list ++ [a]

/-- Visits an instruction with the values checked in front of it, and returns those checked behind it. -/
def visitInst (checked : NumberSet) (i : InstId) : Walk NumberSet := do
  let g ← getThe FlowGraph
  match ← g.opcode i with
  | .checkSmi => checked.insert (← g.arg i 0).index
  | .branch =>
    (← g.args i).zipIdx.forM fun (d, k) => do
      if checked.contains d.index then markUse ⟨i, k⟩
    return checked
  | _ => return checked

/-- Marks the phi inputs that flow along the goto at the end of a block. -/
def visitJoinEdge (checked : NumberSet) (b : BlockId) : Walk Unit := do
  let g ← getThe FlowGraph
  match g.lastInst b with
  | none => pure ()
  | some last =>
    match ← g.inst last with
    | .goto target =>
      match ← g.predIndex target b with
      | none => pure ()
      | some k =>
        (← g.phis target).forM fun phi => do
          if checked.contains (← g.arg phi k).index then
            if (← g.classOf phi) ≠ .smi then
              markUse ⟨phi, k⟩
              modify fun p => { p with phis := enqueue phi p.phis }
    | _ => pure ()

/-- Visits a block and all it dominates, with the values checked on the way down, and returns these again:
the set keeps the room it needed meanwhile. The dominator tree is no higher than there are blocks. -/
def walk : Nat → NumberSet → BlockId → Walk NumberSet
  | 0, _, _ => throwThe Fault .unsettled
  | height + 1, checked, b => do
    let inside ← ((← getThe FlowGraph).insts b).foldlM visitInst checked
    let inside ← (← (← getThe FlowGraph).block b).dominated.foldlM (walk height) inside
    visitJoinEdge inside b
    return { inside with members := checked.members }

/-! ## Phis -/

/-- Every input of the phi is of a class that `admits` allows. -/
def allInputs (g : FlowGraph) (phi : InstId) (admits : ClassId → Bool) : Except Fault Bool := do
  (List.range (← g.args phi).length).allM fun k => return admits (← g.useClass phi k)

def isSmi (c : ClassId) : Bool := c == .smi

def mayBeSmi (c : ClassId) : Bool := c == .smi || c == .dynamic || c == .illegal

/-- The phis that use a definition, once for each use. -/
def usingPhis (g : FlowGraph) (d : InstId) : Except Fault (List InstId) := do
  ((← g.inputUses d).map (·.user)).filterM fun i => return (← g.opcode i) == .phi

/-- A phi that may be a small integer is put behind the others. -/
def enqueuePossible (phis : List InstId) (phi : InstId) : Edit (List InstId) := do
  let g ← get
  if (← g.classOf phi) = .smi then return phis
  return if ← allInputs g phi mayBeSmi then enqueue phi phis else phis

/-- Takes the phis from position `k` on for small integers, and with them the phis they flow into as far as
these may be. Each phi has its turn once. -/
def promote : Nat → Nat → List InstId → Edit (List InstId)
  | 0, _, _ => throw .unsettled
  | steps + 1, k, phis =>
    match phis[k]? with
    | none => return phis
    | some phi => do
      discard <| Edit.setClass phi .smi
      let phis ← (← usingPhis (← get) phi).foldlM enqueuePossible phis
      promote steps (k + 1) phis

/-- A phi that was taken for a small integer has to be looked at again. -/
def pushDoubtful (stack : List InstId) (phi : InstId) : Edit (List InstId) := do
  if (← (← get).classOf phi) = .smi && phi ∉ stack then return phi :: stack
  return stack

/-- Takes the assumption back for the phis with an input that is no small integer, and then for the phis they
flow into. A phi is looked at again only when another one was taken back. -/
def demote : Nat → List InstId → Edit Unit
  | _, [] => pure ()
  | 0, _ => throw .unsettled
  | steps + 1, phi :: stack => do
    if ← allInputs (← get) phi isSmi then demote steps stack
    else
      discard <| Edit.setClass phi .dynamic
      let stack ← (← usingPhis (← get) phi).foldlM pushDoubtful stack
      demote steps stack

/-- Some phi of the graph is a small integer. -/
def hasSmiPhi (g : FlowGraph) : Except Fault Bool := do
  (← g.definitions).anyM fun d => do
    if (← g.opcode d) = .phi then return (← g.classOf d) == .smi else return false

end SmallIntegers

open SmallIntegers in
/-- Propagates small integers from checks into phis. -/
def propagateSmis : Edit Bool := do
  let g ← get
  let n := g.nodes.size
  let (_, p) ← (walk (g.blocks.size + 1) (← NumberSet.ofCapacity n) FlowGraph.graphEntry).run {}
  let phis ← promote (n + 1) 0 p.phis
  demote ((n + 1) * (n + 1)) phis.reverse
  let found ← hasSmiPhi (← get)
  return p.changed || found

end Midend
