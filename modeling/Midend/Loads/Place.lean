import Midend.Graph.Basic

/-! # Places in memory

What loads read and stores write. The places that loads read are numbered in the order in which they are
first met.
-/

namespace Midend.Loads

/-- The cell that a load reads or a store writes. -/
inductive Place where
  | field (object : InstId) (offset : Nat)
  | element (array index : InstId)
deriving DecidableEq

/-- The cells that may be one and the same. -/
inductive Region where
  | field (offset : Nat)
  | elements
deriving DecidableEq

def Place.region : Place → Region
  | field _ offset => .field offset
  | element _ _ => .elements

/-- The cell that a load reads whose value may change. -/
def loadedPlace? : Inst → Option Place
  | .loadField offset _ _ immutable object => if immutable then none else some (.field object offset)
  | .loadIndexed _ array index => some (.element array index)
  | _ => none

/-- The cell that a store writes, and the value a later load would find there. Most typed arrays convert what
is stored, so that nothing can be said of it. -/
def storedPlace? : Inst → Option (Place × Option InstId)
  | .storeField offset _ object value => some (.field object offset, some value)
  | .storeIndexed cls _ array index value =>
    some (.element array index, if cls = .array || cls = .float64Array then some value else none)
  | _ => none

/-- The places that loads read, and the number of the place of each load. -/
structure Numbering where
  places : List Place := []
  loads : List (InstId × Nat) := []

namespace Numbering

def size (n : Numbering) : Nat := n.places.length

/-- The number of a place. -/
def number? (n : Numbering) (p : Place) : Option Nat := n.places.findIdx? (· == p)

/-- The number of the place that a load reads. -/
def ofLoad? (n : Numbering) (i : InstId) : Option Nat := n.loads.lookup i

/-- The places that a store to a region may write. -/
def within (n : Numbering) (r : Region) : List Nat :=
  (List.range n.size).filter fun k => (n.places[k]?).map Place.region == some r

def addLoad (n : Numbering) (i : InstId) (p : Place) : Numbering :=
  match n.number? p with
  | some k => { n with loads := (i, k) :: n.loads }
  | none => { places := n.places ++ [p], loads := (i, n.size) :: n.loads }

end Numbering

/-- Numbers the loads of the discovered blocks in reverse postorder. -/
def number (g : FlowGraph) : Except Fault Numbering :=
  (g.reversePostorder.flatMap g.insts).foldlM (fun n i => do
    match loadedPlace? (← g.inst i) with
    | some p => return n.addLoad i p
    | none => return n) {}

end Midend.Loads
