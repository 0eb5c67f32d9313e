import Midend.Fault

/-! # Sets of small numbers

A set has room for numbers in rows of 64. It makes more room when it needs it, for numbers up to
`NumberSet.limit`; a larger one only gets in if the last row is there already.
-/

namespace Midend

structure NumberSet where
  /-- In ascending order. -/
  members : List Nat := []
  /-- The number of rows there is room for. -/
  rows : Nat := 0
deriving DecidableEq, Inhabited

/-- Numbers in ascending order, with one more among them. -/
def insertAscending (n : Nat) : List Nat → List Nat
  | [] => [n]
  | m :: ms => if n < m then n :: m :: ms else if n = m then m :: ms else m :: insertAscending n ms

namespace NumberSet

/-- The largest number that room is made for. -/
def limit : Nat := 0x1000000

/-- The set with room for `n`. -/
def extend (s : NumberSet) (n : Nat) : Except Fault NumberSet :=
  if n ≤ limit then .ok { s with rows := n / 64 + 1 } else .error .setLimit

/-- The empty set with room for the numbers up to `n`. -/
def ofCapacity (n : Nat) : Except Fault NumberSet := extend {} n

def contains (s : NumberSet) (n : Nat) : Bool := n ∈ s.members

def insert (s : NumberSet) (n : Nat) : Except Fault NumberSet := do
  let s ← if n / 64 < s.rows then pure s else s.extend n
  return { s with members := insertAscending n s.members }

/-- The members that a listing of the set shows, which are those below the limit. -/
def toList (s : NumberSet) : List Nat := s.members.filter (· < limit)

end NumberSet

end Midend
