import Midend.Context
import Midend.Loads.Place

/-! # Available values

At the end of each block, the places whose contents are known and the definitions that hold them. Within a
block this follows from its loads and stores; between blocks it is carried along edges until nothing
changes. Where predecessors hold different values a phi is made, which stays dead for the time being.
-/

namespace Midend.Loads

/-- What a block does to the numbered places. -/
structure Availability where
  /-- The places whose contents at the end of the block are known from the block itself. -/
  generated : List Nat := []
  /-- The places that the block may write. -/
  killed : List Nat := []
  /-- The places known on entry, in ascending order. -/
  incoming : List Nat := []
  /-- The places known at the end, in ascending order. -/
  outgoing : List Nat := []
  /-- The loads that a value from outside the block may replace. -/
  exposed : List InstId := []
  /-- The values of places at the end of the block. -/
  values : List (Nat × InstId) := []
deriving Inhabited

namespace Availability

def value? (a : Availability) (k : Nat) : Option InstId := a.values.lookup k

/-- The place `k` is now known to hold `v`. -/
def provide (a : Availability) (k : Nat) (v : InstId) : Availability :=
  { a with generated := k :: a.generated, values := (k, v) :: a.values }

/-- The places `ks` may have been written. -/
def kill (a : Availability) (ks : List Nat) : Availability :=
  { a with killed := ks ++ a.killed, generated := a.generated.filter (· ∉ ks) }

/-- The places below `size` that are known at the end, given those that are known on entry. -/
def outgoingFrom (a : Availability) (size : Nat) (incoming : List Nat) : List Nat :=
  (List.range size).filter fun k => k ∈ a.generated || (k ∈ incoming && k ∉ a.killed)

end Availability

structure Progress where
  blocks : SideTable Availability := {}
  /-- The phis made so far, the first one first. -/
  phis : List InstId := []
  /-- The phis that are neither alive nor discarded. -/
  pending : List InstId := []
  changed : Bool := false

abbrev Forward := StateT Progress Edit

def available? (p : Progress) (b : BlockId) : Option Availability := p.blocks.get? b.index

def setAvailable (b : BlockId) (a : Availability) : Forward Unit :=
  modify fun p => { p with blocks := p.blocks.insert b.index a }

/-- The definition that stands in for `d` after all replacements. -/
def resolveWithin (g : FlowGraph) : Nat → InstId → Except Fault InstId
  | 0, _ => throw .unsettled
  | steps + 1, d => do
    match (← g.node d).replacement with
    | some r => resolveWithin g steps r
    | none => return d

def resolve (g : FlowGraph) (d : InstId) : Except Fault InstId := resolveWithin g (g.nodes.size + 1) d

def setReplacement (d r : InstId) : Edit Unit := Edit.modifyNode d fun n => { n with replacement := some r }

/-- Lets `value` stand in for a load. -/
def replaceLoad (load value : InstId) : Forward Unit := do
  Edit.ensureSsaIndex value load
  Edit.replaceUses load value
  Edit.remove load
  setReplacement load value
  modify fun p => { p with changed := true }

/-! ## Within a block -/

/-- A store makes its place known and all other places of the region unknown. -/
def visitStore (n : Numbering) (a : Availability) (place : Place) (value : Option InstId) : Availability :=
  match n.within place.region with
  | [] => a
  | ks =>
    match value, n.number? place with
    | some v, some k => (a.kill ks).provide k v
    | _, _ => a.kill ks

/-- A load of a place that is known gives way to the known value. -/
def visitLoad (a : Availability) (i : InstId) (k : Nat) : Forward Availability := do
  if k ∈ a.generated then
    match a.value? k with
    | some v =>
      replaceLoad i (← resolve (← getThe FlowGraph) v)
      return a
    | none => return a.provide k i
  let a := if k ∈ a.killed then a else { a with exposed := a.exposed ++ [i] }
  return a.provide k i

def visitInst (n : Numbering) (a : Availability) (i : InstId) : Forward Availability := do
  let d ← (← getThe FlowGraph).inst i
  match storedPlace? d, n.ofLoad? i with
  | some (place, value), _ => return visitStore n a place value
  | none, load =>
    if d.hasSideEffect then return { a with killed := List.range n.size, generated := [] }
    match load with
    | some k => visitLoad a i k
    | none => return a

def visitBlock (n : Numbering) (b : BlockId) : Forward Unit := do
  let a ← ((← getThe FlowGraph).insts b).foldlM (visitInst n) {}
  setAvailable b { a with outgoing := a.outgoingFrom n.size [] }

/-! ## Between blocks -/

/-- A dead phi of the values that flow into a block. -/
def mergePhi (b : BlockId) (values : List InstId) : Forward InstId := do
  let phi ← Edit.addPhi b none values.length
  values.zipIdx.forM fun (v, k) => (Edit.setArg phi k v : Edit Unit)
  discard <| Edit.allocSsaIndex phi
  modify fun p => { p with phis := p.phis ++ [phi], pending := phi :: p.pending }
  return phi

/-- The values that a place has at the ends of the predecessors, if all of them know one. -/
def predValues (g : FlowGraph) (p : Progress) (k : Nat) : List BlockId → Except Fault (Option (List InstId))
  | [] => return some []
  | b :: rest => do
    match (available? p b).bind (·.value? k) with
    | none => return none
    | some v =>
      let v ← resolve g v
      return (← predValues g p k rest).map (v :: ·)

/-- The value of a place on entry to a block. -/
def mergeIncoming (b : BlockId) (k : Nat) : Forward (Option InstId) := do
  let g ← getThe FlowGraph
  match ← predValues g (← get) k (← g.preds b) with
  | some (v :: vs) => if vs.all (· == v) then return some v else return some (← mergePhi b (v :: vs))
  | _ => return none

/-- The places that all of the given sets hold. -/
def common : List (List Nat) → List Nat
  | [] => []
  | s :: rest => rest.foldl (fun s t => s.filter (· ∈ t)) s

/-- The places known at the ends of all predecessors that were visited. -/
def incomingFrom (p : Progress) (preds : List BlockId) : List Nat :=
  common (preds.filterMap fun b => (available? p b).map (·.outgoing))

/-- Finds the value of a place that became known at the end of a block. -/
def fillValue (b : BlockId) (k : Nat) : Forward Unit := do
  match ← mergeIncoming b k with
  | none => pure ()
  | some v =>
    match available? (← get) b with
    | some a => setAvailable b { a with values := (k, v) :: a.values }
    | none => pure ()

/-- Carries what the predecessors know into a block. Returns whether more is known at its end. -/
def carryInto (n : Numbering) (b : BlockId) : Forward Bool := do
  let incoming := incomingFrom (← get) (← (← getThe FlowGraph).preds b)
  match available? (← get) b with
  | none => return false
  | some a =>
    if incoming = a.incoming then return false
    let outgoing := a.outgoingFrom n.size incoming
    setAvailable b { a with incoming, outgoing }
    if outgoing = a.outgoing then return false
    (outgoing.filter fun k => (a.value? k).isNone).forM (fillValue b)
    return true

/-- One round over all blocks. -/
def carryAll (n : Numbering) (order : List BlockId) : Forward Bool :=
  order.foldlM (fun changed b => return (← carryInto n b) || changed) false

/-- Rounds until nothing changes. Every round but the last makes a place known at the end of a block. -/
def settle (n : Numbering) (order : List BlockId) : Nat → Forward Unit
  | 0 => throwThe Fault .unsettled
  | rounds + 1 => do
    if ← carryAll n order then settle n order rounds

end Midend.Loads
