import Midend.Loads.Availability

/-! # Redundant loads

A load of a mutable field or an array element gives way to a value that is known to be in memory at that
point: an earlier load of the same place, or the value stored there. Where different values meet, a phi that
merges them comes to life if it turns out to be needed.
-/

namespace Midend.Loads

/-- Replaces an exposed load by the value that reaches its block. -/
def forwardLoad (b : BlockId) (load : InstId) (k : Nat) : Forward Unit := do
  match ← mergeIncoming b k with
  | none => pure ()
  | some v =>
    let replacement ← resolve (← getThe FlowGraph) v
    if replacement ≠ load then replaceLoad load replacement

def forwardBlock (n : Numbering) (b : BlockId) : Forward Unit := do
  match available? (← get) b with
  | none => pure ()
  | some a =>
    a.exposed.forM fun load => do
      match n.ofLoad? load with
      | some k => if k ∈ a.incoming then forwardLoad b load k
      | none => pure ()

/-! ## Phis -/

def discardPhi (phi : InstId) : Forward Unit := do
  Edit.removePhi phi
  modify fun p => { p with pending := p.pending.filter (· != phi) }

/-- The pending phis seen so far, of which those from `position` on are still to be looked at, and the one
value that flows into them from outside. -/
structure Cluster where
  phis : List InstId
  position : Nat := 0
  value : Option InstId := none

/-- Takes an input of `current` into account; `none` says that two values flow in. -/
def Cluster.addInput (pending : List InstId) (current : InstId) (c : Cluster) (input : InstId) :
    Option Cluster :=
  if input = current then some c
  else if input ∈ pending then
    some (if input ∈ c.phis then c else { c with phis := c.phis ++ [input] })
  else
    match c.value with
    | none => some { c with value := some input }
    | some v => if v = input then some c else none

/-- The pending phis that a phi takes its value from, and the one value they all take, if it is one. Each
pending phi is looked at once. -/
def closeCluster (g : FlowGraph) (pending : List InstId) : Nat → Cluster → Except Fault (Option Cluster)
  | 0, _ => throw .unsettled
  | steps + 1, c =>
    match c.phis[c.position]? with
    | none => return some c
    | some current => do
      match (← g.args current).foldlM (Cluster.addInput pending current) c with
      | none => return none
      | some c => closeCluster g pending steps { c with position := c.position + 1 }

/-- Lets the one value that a phi can take stand in for it and the pending phis between. -/
def eliminateRedundant (phi : InstId) : Forward Bool := do
  let pending := (← get).pending
  match ← closeCluster (← getThe FlowGraph) pending (pending.length + 2) { phis := [phi] } with
  | some { phis, value := some v, .. } =>
    phis.forM fun p => do
      Edit.replaceUses p v
      setReplacement p v
    phis.forM discardPhi
    return true
  | _ => return false

/-- A phi that is used and not redundant comes to life; any other goes away. -/
def emitPhi (phi : InstId) : Forward Unit := do
  let g ← getThe FlowGraph
  if (← g.instBlock phi).isNone then return
  if !(← g.hasUses phi) then discardPhi phi
  else if !(← eliminateRedundant phi) then
    Edit.revivePhi phi
    modify fun p => { p with pending := p.pending.filter (· != phi) }

def forwardAll (n : Numbering) : Forward Unit := do
  let order := (← getThe FlowGraph).reversePostorder
  order.forM (visitBlock n)
  settle n order (order.length * n.size + 2)
  order.forM (forwardBlock n)
  (← get).phis.forM emitPhi

end Loads

/-- Replaces loads of places whose contents are known. -/
def eliminateLoads : Edit Bool := do
  let n ← Loads.number (← get)
  if n.size = 0 then return false
  let ((), p) ← (Loads.forwardAll n).run {}
  return p.changed

end Midend
