import Midend.Graph.Layout

/-! # Instructions linked to their neighbours

A `Links` keeps the order of instructions by what changes when one of them is put somewhere: every block has its first
and its last instruction, and every placed instruction has its block and the instructions next to it. Each operation
repairs the few links that are concerned. `Layout` keeps the same order as lists, and `Midend.Proofs.Graph.Links` shows
that the two go through the same states.
-/

namespace Midend

namespace Links

/-- The first and the last instruction of a block. -/
structure Span where
  first : Option InstId := none
  last : Option InstId := none
deriving DecidableEq, Inhabited

/-- The block of an instruction, and the instructions next to it there. -/
structure Spot where
  block : BlockId
  prev : Option InstId := none
  next : Option InstId := none
deriving DecidableEq, Inhabited

end Links

structure Links where
  spans : SideTable Links.Span := {}
  spots : SideTable Links.Spot := {}
deriving Inhabited

namespace Links

/-- A block that nothing was put into yet is empty. -/
def span (k : Links) (b : BlockId) : Span := (k.spans.get? b.index).getD {}

def setSpan (k : Links) (b : BlockId) (s : Span) : Links := { k with spans := k.spans.insert b.index s }

def spot (k : Links) (i : InstId) : Except Fault Spot := k.spots.get i.index

def first? (k : Links) (b : BlockId) : Option InstId := (k.span b).first

def last? (k : Links) (b : BlockId) : Option InstId := (k.span b).last

def next (k : Links) (i : InstId) : Except Fault (Option InstId) := do return (← k.spot i).next

def prev (k : Links) (i : InstId) : Except Fault (Option InstId) := do return (← k.spot i).prev

/-- The block an instruction is placed in. -/
def home? (k : Links) (i : InstId) : Option BlockId := (k.spots.get? i.index).map Spot.block

/-! ## Repairing links -/

/-- Changes the spot of an instruction, if there is one to change. -/
def modifySpot (k : Links) (i : Option InstId) (f : Spot → Spot) : Except Fault Links :=
  match i with
  | none => return k
  | some i => return { k with spots := ← k.spots.modify i.index f }

def setNext (k : Links) (i next : Option InstId) : Except Fault Links := k.modifySpot i fun s => { s with next }

def setPrev (k : Links) (i prev : Option InstId) : Except Fault Links := k.modifySpot i fun s => { s with prev }

/-- Gives `i`, which is not placed, a spot in `b` between two neighbours. -/
def join (k : Links) (i : InstId) (b : BlockId) (prev next : Option InstId) : Except Fault Links := do
  let spots ← k.spots.add i.index { block := b, prev, next }
  let k ← { k with spots }.setNext prev (some i)
  k.setPrev next (some i)

/-! ## Placing and removing -/

def append (k : Links) (i : InstId) (b : BlockId) : Except Fault Links := do
  let s := k.span b
  let k ← k.join i b s.last none
  return k.setSpan b { first := s.first.or (some i), last := some i }

def prepend (k : Links) (i : InstId) (b : BlockId) : Except Fault Links := do
  let s := k.span b
  let k ← k.join i b none s.first
  return k.setSpan b { first := some i, last := s.last.or (some i) }

def insertBefore (k : Links) (i anchor : InstId) : Except Fault Links := do
  let a ← k.spot anchor
  let k ← k.join i a.block a.prev (some anchor)
  let s := k.span a.block
  return k.setSpan a.block { s with first := if s.first = some anchor then some i else s.first }

def insertAfter (k : Links) (i anchor : InstId) : Except Fault Links := do
  let a ← k.spot anchor
  let k ← k.join i a.block (some anchor) a.next
  let s := k.span a.block
  return k.setSpan a.block { s with last := if s.last = some anchor then some i else s.last }

def remove (k : Links) (i : InstId) : Except Fault Links := do
  let a ← orFault (k.spots.get? i.index) .notInLayout
  let k ← { k with spots := k.spots.erase i.index }.setPrev a.next a.prev
  let k ← k.setNext a.prev a.next
  let s := k.span a.block
  return k.setSpan a.block
    { first := if s.first = some i then a.next else s.first
      last := if s.last = some i then a.prev else s.last }

/-! ## Walking along the links -/

/-- The instructions from `i` on. A walk over more than `n` of them comes to no end. -/
def follow (k : Links) : Nat → Option InstId → Except Fault (List InstId)
  | _, none => return []
  | 0, some _ => throw .unsettled
  | n + 1, some i => do return i :: (← k.follow n (← k.next i))

/-- The instructions of a block. There are no more of them than there are spots. -/
def insts (k : Links) (b : BlockId) : Except Fault (List InstId) := k.follow k.spots.slots.size (k.first? b)

/-- Moves all instructions of one block to the end of another, one after the other. -/
def moveAll (k : Links) (source target : BlockId) : Except Fault Links := do
  (← k.insts source).foldlM (fun k i => do (← k.remove i).append i target) k

end Links

end Midend
