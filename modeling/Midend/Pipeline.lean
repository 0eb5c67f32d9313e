import Midend.Calls
import Midend.Classes
import Midend.Consistency
import Midend.Constants
import Midend.Hoisting
import Midend.Loads
import Midend.Ranges
import Midend.Representations
import Midend.Sharing
import Midend.Simplify
import Midend.SmallIntegers
import Midend.Ssa

/-! # The optimization pipeline

The stages by name, the order in which they run, and the optimization of one method from its unoptimized
graph to a verified result.
-/

namespace Midend

inductive Stage where
  /-- Calls become typed instructions where feedback allows it. -/
  | specialize
  /-- Calls become typed instructions where propagated classes allow it. -/
  | applyClasses
  | simplify
  | propagateClasses
  | propagateConstants
  | eliminateLoads
  | shareValues
  | hoistInvariants
  | propagateSmis
  | analyzeRanges
  | selectRepresentations
deriving DecidableEq, Inhabited

namespace Stage

/-- All stages, in the order in which they are listed. -/
def all : List Stage :=
  [specialize, applyClasses, simplify, propagateClasses, propagateConstants, eliminateLoads, shareValues,
    hoistInvariants, propagateSmis, analyzeRanges, selectRepresentations]

/-- The short name of a stage. -/
def name : Stage → String
  | specialize => "specialize"
  | applyClasses => "classids"
  | simplify => "canon"
  | propagateClasses => "types"
  | propagateConstants => "sccp"
  | eliminateLoads => "loadelim"
  | shareValues => "cse"
  | hoistInvariants => "licm"
  | propagateSmis => "smi"
  | analyzeRanges => "range"
  | selectRepresentations => "repr"

def ofName? (s : String) : Option Stage := all.find? (·.name == s)

/-- Runs a stage on a graph in SSA form, and tells whether it changed something. -/
def run (ctx : Context) : Stage → Edit Bool
  | specialize => Calls.specialize ctx
  | applyClasses => Calls.applyClasses ctx
  | simplify => Midend.simplify ctx
  | propagateClasses => Midend.propagateClasses ctx
  | propagateConstants => Midend.propagateConstants
  | eliminateLoads => Midend.eliminateLoads
  | shareValues => Midend.shareValues
  | hoistInvariants => Midend.hoistInvariants
  | propagateSmis => Midend.propagateSmis
  | analyzeRanges => Midend.analyzeRanges ctx
  | selectRepresentations => Midend.selectRepresentations ctx

end Stage

/-- The stages that a configuration asks for. Ranges rely on checks that were hoisted through loop phis. -/
def Config.stages (c : Config) : List Stage :=
  [.specialize, .simplify] ++
    (if c.propagateTypes then [.propagateClasses, .applyClasses, .simplify] else []) ++
    (if c.constantPropagation then [.propagateConstants, .simplify] else []) ++
    (if c.loadElimination then [.eliminateLoads] else []) ++
    (if c.commonSubexpressions then [.shareValues] else []) ++
    (if c.loopInvariantMotion then [.hoistInvariants] else []) ++
    (if c.rangeAnalysis then [.propagateSmis, .analyzeRanges] else []) ++
    [.simplify, .selectRepresentations]

/-- Gives the method up if the graph is found to be inconsistent. -/
def verify (ctx : Context) (after : String) : Construct Unit := do
  if ctx.config.shouldVerify then
    let found ← (← getThe FlowGraph).check
    if !found.isEmpty then throw (.malformedGraph (.violations found.length after))

/-- Runs stages on a graph in SSA form and verifies the result. -/
def runStages (ctx : Context) (stages : List Stage) : Construct Unit := do
  stages.forM fun s => do discard (s.run ctx : Edit Bool)
  verify ctx "optimization"

/-- Optimizes a method. A method that is given up leaves a graph of no use. -/
def optimize (ctx : Context) : Construct Unit := do
  Ssa.construct
  verify ctx "SSA construction"
  runStages ctx ctx.config.stages

end Midend
