import Midend.Graph.Text
import Midend.Pipeline

/-! # Batches of methods

Methods that are optimized together, each on its own.
-/

namespace Midend

structure Batch where
  graphs : List FlowGraph := []
deriving Inhabited

namespace Batch

def size (b : Batch) : Nat := b.graphs.length

def graph (b : Batch) (k : Nat) : Except Fault FlowGraph := itemAt b.graphs k

/-- Changes the name of method `k`. -/
def rename (b : Batch) (k : Nat) (name : String) : Except Fault Batch := do
  let g ← b.graph k
  return { graphs := b.graphs.set k { g with name } }

/-- Makes the same edit to every method, and returns what it yields for each. -/
def apply {α : Type} (b : Batch) (e : Edit α) : Except Fault (List α × Batch) := do
  let results ← b.graphs.mapM e.run
  return (results.map (·.1), { graphs := results.map (·.2) })

/-- Brings every method into SSA form. -/
def construct (b : Batch) : Except Fault (List (Except Bailout Unit) × Batch) :=
  b.apply (ExceptT.run Ssa.construct)

def optimize (b : Batch) (ctx : Context) : Except Fault (List (Except Bailout Unit) × Batch) :=
  b.apply (ExceptT.run (Midend.optimize ctx))

/-- Runs one stage on every method, and tells whether it changed any. -/
def runStage (b : Batch) (ctx : Context) (s : Stage) : Except Fault (Bool × Batch) := do
  let (changes, b) ← b.apply (s.run ctx)
  return (changes.any id, b)

/-- Everything that is wrong with the methods. -/
def check (b : Batch) : Except Fault (List Finding) := do
  return (← b.graphs.mapM FlowGraph.check).flatten

/-- The texts of the methods with an empty line between them. -/
def text (b : Batch) : Except Fault String := do
  return "\n".intercalate (← b.graphs.mapM FlowGraph.text)

end Batch

end Midend
