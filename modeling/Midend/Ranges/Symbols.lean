import Midend.Graph.Basic

/-! # Symbolic boundaries

What a boundary amounts to in a graph whose definitions have ranges. A symbolic boundary can be resolved to
a constant through the ranges of its symbols, folded through constraints and constant additions, and
expanded to the boundary of its symbol. Chains of symbols are followed up to a fixed depth.
-/

namespace Midend.Ranges

/-- The longest chain of symbols that is followed. -/
def maxDepth : Nat := 64

/-- One of the two ends of a range. -/
inductive Side where
  | lower
  | upper
deriving DecidableEq

namespace Side

/-- The boundary of a range at this end. -/
def pick : Side → Range → Boundary
  | lower, r => r.min
  | upper, r => r.max

/-- The last small integer in this direction. -/
def limit : Side → Boundary
  | lower => .minSmi
  | upper => .maxSmi

/-- The mark of an overflow in this direction. -/
def overflow : Side → Boundary
  | lower => .overflowedMinSmi
  | upper => .overflowedMaxSmi

/-- A constant that excludes no small integer at this end. -/
def isLimit : Side → Boundary → Bool
  | lower, .constant v => v ≤ Word.smiMin
  | upper, .constant v => Word.smiMax ≤ v
  | _, _ => false

/-- The tighter of two boundaries of one symbol. -/
def tighter (s : Side) (a b : Boundary) : Boundary :=
  match s with
  | lower => if a.offset ≤ b.offset then b else a
  | upper => if a.offset ≤ b.offset then a else b

end Side

variable (g : FlowGraph)

/-- The value of a definition plus an offset. Constants are folded right away. -/
def ofDefinition (d : InstId) (offset : Int) : Except Fault Boundary := do
  match ← g.smiConstantOf d with
  | some v => return .constant (Word.addSaturating v offset)
  | none => return .symbol d offset

/-! ## Resolving -/

/-- The boundary of a definition at one end, as far as its range is known. -/
def boundaryOf (s : Side) (d : InstId) : Except Fault Boundary := do
  match ← g.range d with
  | some r => return s.pick r
  | none => return s.limit

/-- The constant that `b` plus an offset comes to. -/
def resolveWithin (s : Side) : Nat → Int → Boundary → Except Fault Boundary
  | 0, _, _ => return s.limit
  | depth + 1, offset, b =>
    match b with
    | .constant v => return if offset = 0 then .constant v else .orOverflow (v + offset) s.overflow
    | .unknown => resolveWithin s depth offset s.limit
    | .symbol d o =>
      match Word.add? offset o with
      | some offset => do resolveWithin s depth offset (← boundaryOf g s d)
      | none => return s.overflow

/-- The constant that a boundary comes to at one end, or the mark of an overflow. -/
def resolve (s : Side) (b : Boundary) : Except Fault Boundary := resolveWithin g s maxDepth 0 b

/-- The outermost constant of a range at one end. -/
def outermost (s : Side) : Option Range → Except Fault Boundary
  | some r => resolve g s (s.pick r)
  | none => return s.limit

/-- The value that a boundary comes to, brought back to the small integers. -/
def clampedValue (s : Side) (b : Boundary) : Except Fault Int := do (← resolve g s b).clamp.value

/-! ## Equal definitions -/

/-- The value below at most `n` constraints. -/
def unwrapWithin : Nat → InstId → Except Fault InstId
  | 0, d => return d
  | n + 1, d => do
    match ← g.inst d with
    | .constraint _ inputs => unwrapWithin n (← itemAt inputs 0)
    | _ => return d

/-- The value that a constraint constrains. -/
def unwrap (d : InstId) : Except Fault InstId := unwrapWithin g maxDepth d

/-- The definitions compute the same value. -/
def sameDefinition (a b : InstId) : Except Fault Bool := do
  let a ← unwrap g a
  let b ← unwrap g b
  if a = b then return true
  let d ← g.inst a
  if ← d.affectedBySideEffect then return false
  return (← d.valueKey) == (← (← g.inst b).valueKey)

/-- The boundaries are offsets of the same value. -/
def sameSymbol (a b : Boundary) : Except Fault Bool :=
  match a.symbol?, b.symbol? with
  | some x, some y => sameDefinition g x y
  | _, _ => return false

def sameBoundary (a b : Boundary) : Except Fault Bool :=
  match a, b with
  | .constant x, .constant y => return x == y
  | .symbol _ x, .symbol _ y => do if x = y then sameSymbol g a b else return false
  | _, _ => return false

/-! ## Folding and expanding -/

/-- A definition and an offset from it that a definition comes to by itself. -/
def symbolStep? (d : InstId) : Except Fault (Option (InstId × Int)) := do
  match ← g.inst d with
  | .constraint _ inputs => return some (← itemAt inputs 0, 0)
  | .binaryOp .binarySmiOp .add l r _ =>
    match ← g.smiConstantOf l, ← g.smiConstantOf r with
    | _, some c => return some (l, c)
    | some c, none => return some (r, c)
    | none, none => return none
  | .binaryOp .binarySmiOp .sub l r _ =>
    match ← g.smiConstantOf r with
    | some c => return some (l, ← orFault (Word.check (-c)) .overflow)
    | none => return none
  | _ => return none

/-- Folds constraints and constant additions into the offset of a symbol. -/
def foldWithin (overflow : Boundary) : Nat → InstId → Int → Except Fault Boundary
  | 0, d, offset => ofDefinition g d offset
  | depth + 1, d, offset => do
    match ← symbolStep? g d with
    | none => ofDefinition g d offset
    | some (next, delta) =>
      if Word.IsSmi (offset + delta) then foldWithin overflow depth next (offset + delta)
      else return overflow

/-- The boundary with all foldable symbols folded. -/
def fold (s : Side) : Boundary → Except Fault Boundary
  | .symbol d offset => foldWithin g s.overflow maxDepth d offset
  | b => return b

/-- The symbolic boundary of the symbol of a boundary, which says at least as little. -/
def expand? (s : Side) (b : Boundary) : Except Fault (Option Boundary) := do
  match b with
  | .symbol d offset =>
    match (← g.range d).map s.pick with
    | some (.symbol next o) =>
      if Word.IsSmi (o + offset) then return some (← fold g s (.symbol next (o + offset)))
      else return some s.overflow
    | _ => return none
  | _ => return none

/-- Expands two boundaries until they are offsets of the same value, the first one for as long as it can
be. -/
def alignWithin (sa sb : Side) : Nat → Boundary → Boundary → Except Fault (Option (Boundary × Boundary))
  | 0, _, _ => return none
  | depth + 1, a, b => do
    if ← sameSymbol g a b then return some (a, b)
    match ← expand? g sa a with
    | some a => alignWithin sa sb depth a b
    | none =>
      match ← expand? g sb b with
      | some b => alignWithin sa sb depth a b
      | none => return none

def align? (sa sb : Side) (a b : Boundary) : Except Fault (Option (Boundary × Boundary)) :=
  alignWithin g sa sb maxDepth a b

/-! ## Extremes -/

/-- The smaller of two boundaries, as a constant unless they share a symbol. -/
def smaller (a b : Boundary) : Except Fault Boundary := do
  if ← sameSymbol g a b then return if a.offset ≤ b.offset then a else b
  return .constant (min (← clampedValue g .lower a) (← clampedValue g .lower b))

/-- The larger of two boundaries, as a constant unless they share a symbol. -/
def larger (a b : Boundary) : Except Fault Boundary := do
  if ← sameSymbol g a b then return if a.offset ≥ b.offset then a else b
  return .constant (max (← clampedValue g .upper a) (← clampedValue g .upper b))

end Midend.Ranges
