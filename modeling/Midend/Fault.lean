import Midend.Boundary
import Midend.Token

/-! # Failures

An operation that cannot go on stops with a `Fault`: a key that names nothing, a value outside its
domain, an instruction removed while it is still needed. A method that cannot be optimized for a reason
of its own is given up with a `Bailout` instead, and keeps running unoptimized.
-/

namespace Midend

/-- One thing a verified graph must not have. -/
structure Finding where
  /-- The graph it was found in. -/
  graph : String
  /-- The block or instruction it concerns. -/
  subject : String
  message : String
deriving DecidableEq, Inhabited

def Finding.text (f : Finding) : String := s!"{f.graph}: {f.subject}: {f.message}"

def Finding.report (fs : List Finding) : String := String.join (fs.map fun f => s!"- {f.text}\n")

inductive Fault where
  | missingKey
  | duplicateKey
  | missingSideKey
  | missingClass
  | notInLayout
  | notComparison (op : Token)
  | notConstant (boundary : Boundary)
  /-- An instruction was removed although inputs or environments refer to it. -/
  | stillUsed (inst : InstId) (uses : List Use)
  | inconsistent (findings : List Finding)
  /-- A position beyond the end of a list. -/
  | outOfRange
  /-- Arithmetic left the machine word. -/
  | overflow
  /-- A number of items other than the one required. -/
  | wrongCount
  /-- A member too large for a set of small numbers. -/
  | setLimit
  /-- A phi of no local variable where one is required. -/
  | notVariable (phi : InstId)
  /-- An iteration did not come to rest. -/
  | unsettled
deriving Inhabited

/-- The message of a fault. Faults of arithmetic, positions and counts carry none. -/
def Fault.message? : Fault → Option String
  | missingKey => some "key not in table"
  | duplicateKey => some "key already in table"
  | missingSideKey => some "key not in secondary table"
  | missingClass => some "class not in table"
  | notInLayout => some "inst not in layout"
  | notComparison op => some s!"{op.name} is not a comparison"
  | notConstant b => b.text?.map (· ++ " is not a constant boundary")
  | stillUsed i us =>
    some (s!"{i.text} removed while still in use by [" ++ ", ".intercalate (us.map Use.text) ++ "]")
  | inconsistent fs => some ("Verification failed:\n" ++ Finding.report fs)
  | outOfRange | overflow | wrongCount | setLimit | notVariable _ | unsettled => none

/-- What is wrong with a graph that cannot be brought into SSA form or failed its verification. -/
inductive Defect where
  | unterminated (block : BlockId)
  | unsplitEdge (source target : BlockId)
  | notJoin (block : BlockId)
  | missingPredecessor (source target : BlockId)
  /-- Input `index` of `inst` is not what lies on top of the expression stack. -/
  | inputMismatch (index : Nat) (inst input reaching : InstId)
  | argumentMismatch (inst argument reaching : InstId)
  | violations (count : Nat) (after : String)
deriving DecidableEq, Inhabited

def Defect.text : Defect → String
  | unterminated b => s!"{b.text} does not end in a terminator"
  | unsplitEdge a b => s!"edge {a.text} -> {b.text} is not split"
  | notJoin b => s!"{b.text} has multiple predecessors but is not a join"
  | missingPredecessor a b => s!"{a.text} is not a predecessor of {b.text}"
  | inputMismatch k i a r =>
    s!"input {k} of {i.text} is {a.text} but the expression stack holds {r.text}"
  | argumentMismatch i a r =>
    s!"{i.text} expects argument {a.text} but the expression stack holds {r.text}"
  | violations n stage => s!"{n} invariant violations after {stage}"

inductive Bailout where
  | catchEntry
  | stackUnderflow (block : BlockId)
  | unresolvedLocal (slot : Nat)
  | malformedGraph (defect : Defect)
deriving DecidableEq, Inhabited

def Bailout.message : Bailout → String
  | catchEntry => "Catch-entry support in SSA"
  | stackUnderflow b => s!"expression stack underflow in {b.text}"
  | unresolvedLocal s => s!"unresolved local variable slot {s}"
  | malformedGraph d => s!"malformed graph: {d.text}"

/-- The value of `x`, or the fault `e` if there is none. -/
def orFault {α : Type} (x : Option α) (e : Fault) : Except Fault α :=
  match x with
  | some a => .ok a
  | none => .error e

/-- Item `i` of a list. -/
def itemAt {α : Type} (xs : List α) (i : Nat) : Except Fault α := orFault xs[i]? .outOfRange

namespace Boundary

def value (b : Boundary) : Except Fault Int := orFault b.value? (.notConstant b)

/-- The sum of two constant boundaries, or `overflow` if it is no small integer. -/
def add (a b overflow : Boundary) : Except Fault Boundary := do
  return orOverflow ((← a.value) + (← b.value)) overflow

/-- The difference of two constant boundaries, or `overflow` if it is no small integer. -/
def sub (a b overflow : Boundary) : Except Fault Boundary := do
  return orOverflow ((← a.value) - (← b.value)) overflow

def text (b : Boundary) : Except Fault String := orFault b.text? .overflow

end Boundary

def Range.text (r : Range) : Except Fault String := orFault r.text? .overflow

/-- The comparison that holds exactly when this one does not. -/
def Token.negated (op : Token) : Except Fault Token := orFault op.negated? (.notComparison op)

end Midend
