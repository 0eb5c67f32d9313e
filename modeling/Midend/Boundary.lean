import Midend.Key
import Midend.Word

/-! # Ranges of small integers

A boundary is a constant or the value of a definition plus an offset. A constant boundary one step outside
the small integers records that a computation overflowed.
-/

namespace Midend

inductive Boundary where
  | unknown
  | constant (value : Int)
  /-- The value of `definition` plus `offset`. -/
  | symbol (definition : InstId) (offset : Int)
deriving DecidableEq, Inhabited

namespace Boundary

def minSmi : Boundary := constant Word.smiMin

def maxSmi : Boundary := constant Word.smiMax

def overflowedMinSmi : Boundary := constant (Word.smiMin - 1)

def overflowedMaxSmi : Boundary := constant (Word.smiMax + 1)

def isUnknown : Boundary → Bool
  | unknown => true
  | _ => false

def isConstant : Boundary → Bool
  | constant _ => true
  | _ => false

def isSymbol : Boundary → Bool
  | symbol .. => true
  | _ => false

def value? : Boundary → Option Int
  | constant v => some v
  | _ => none

/-- The offset of a symbolic boundary, else zero. -/
def offset : Boundary → Int
  | symbol _ o => o
  | _ => 0

def symbol? : Boundary → Option InstId
  | symbol d _ => some d
  | _ => none

/-- A constant outside the small integers. -/
def overflowed : Boundary → Bool
  | constant v => !decide (Word.IsSmi v)
  | _ => false

/-- A constant outside the small integers becomes the nearest small integer. -/
def clamp : Boundary → Boundary
  | constant v => if v > Word.smiMax then maxSmi else if v < Word.smiMin then minSmi else constant v
  | b => b

/-- The constant `v`, or `overflow` if `v` is no small integer. -/
def orOverflow (v : Int) (overflow : Boundary) : Boundary :=
  if Word.IsSmi v then constant v else overflow

/-- The text of a boundary. There is none for the one offset whose negation leaves the word. -/
def text? : Boundary → Option String
  | unknown => some "_"
  | constant v =>
    some (if v = Word.smiMin then "-inf" else if v = Word.smiMax then "+inf" else toString v)
  | symbol d o =>
    if o = 0 then some d.text
    else if o < 0 then (Word.check (-o)).map fun n => s!"{d.text} - {n}"
    else some s!"{d.text} + {o}"

end Boundary

/-- A closed interval of small integers. -/
structure Range where
  min : Boundary
  max : Boundary
deriving DecidableEq, Inhabited

namespace Range

/-- All small integers. -/
def unknown : Range := ⟨.minSmi, .maxSmi⟩

def between (lo hi : Int) : Range := ⟨.constant lo, .constant hi⟩

def constant (v : Int) : Range := between v v

def text? (r : Range) : Option String := do
  let lo ← r.min.text?
  let hi ← r.max.text?
  return s!"[{lo}, {hi}]"

end Range

end Midend
