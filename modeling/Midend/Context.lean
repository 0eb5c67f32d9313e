import Midend.Graph.Edit

/-! # The context of a stage

What is asked of the stages, what all of them may consult, and the ways in which they go over a graph.
-/

namespace Midend

/-! ## Configuration -/

/-- Which optimizations run and how far they go. -/
structure Config where
  /-- The largest number of receiver classes for which a call becomes a polymorphic dispatch. -/
  maxPolymorphicChecks : Nat := 4
  /-- Wide integers are kept unboxed; otherwise their arithmetic stays a call. -/
  unboxedMints : Bool := true
  /-- The class hierarchy may be consulted to leave out class checks. -/
  useClassHierarchy : Bool := true
  propagateTypes : Bool := true
  constantPropagation : Bool := true
  loadElimination : Bool := true
  commonSubexpressions : Bool := true
  loopInvariantMotion : Bool := true
  rangeAnalysis : Bool := true
  /-- Range analysis may remove bounds checks. -/
  boundsCheckElimination : Bool := true
  verify : Bool := false
  trace : Bool := false
deriving DecidableEq, Inhabited

/-- Graphs are verified after construction and after the last stage, also when this is not asked for. -/
def Config.shouldVerify (_ : Config) : Bool := true

/-! ## Ways over a graph -/

structure Context where
  config : Config := {}
  hierarchy : Hierarchy := .core
deriving Inhabited

/-- The first of the attempts that changes something; the later ones are not made. -/
def firstChange : List (Edit Bool) → Edit Bool
  | [] => pure false
  | attempt :: rest => do if ← attempt then return true else firstChange rest

/-- An attempt that is made only under a condition. -/
def attemptIf (condition : Bool) (attempt : Edit Bool) : Edit Bool :=
  if condition then attempt else pure false

/-- Visits the instructions block by block in reverse postorder. Those that an earlier visit took out are
left aside. -/
def visitInsts (visit : InstId → Edit Bool) : Edit Bool := do
  anyChange (← get).reversePostorder fun b => do
    anyChange ((← get).insts b) fun i => do
      if (← get).isPlaced i then visit i else return false

end Midend
