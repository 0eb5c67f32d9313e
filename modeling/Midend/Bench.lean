import Midend.Batch
import Midend.Bench.Options
import Midend.Bench.Samples

/-! # The command line

Builds copies of the sample methods, runs the optimizer over them, and shows the result.
-/

namespace Midend.Bench

/-- Why a run ends early. -/
inductive Failure where
  /-- An argument that no option expects. -/
  | unexpected (arg : String)
  | unknownFeature (name : String)
  | invalidCopies (why : String)
  | unknownPass (name : String)
  /-- A sample that cannot be built. -/
  | sample (why : String)
  | inconsistent (findings : List Finding)
  | fault (f : Fault)

namespace Failure

def message : Failure → String
  | unexpected arg => s!"unexpected argument `{arg}`"
  | unknownFeature name => s!"unknown feature `{name}`"
  | invalidCopies why => s!"invalid number of copies: {why}"
  | unknownPass name => s!"unknown pass `{name}`"
  | sample why => why
  | inconsistent fs => "Verification failed after optimization:\n" ++ Finding.report fs
  | fault f => f.message?.getD "the optimizer failed"

def code : Failure → Nat
  | fault _ => 101
  | _ => 1

end Failure

abbrev Run := Except Failure

def onFault {α : Type} (x : Except Fault α) : Run α := x.mapError .fault

/-- The configuration that the options ask for. -/
def configure (o : Options) : Run Config :=
  o.disabled.foldlM (fun c name =>
    match disableFeature? c name with
    | some c => .ok c
    | none => .error (.unknownFeature name)) { verify := o.verify }

/-- The stages that the options list. -/
def listedStages (o : Options) : Run (List Stage) :=
  o.passes.mapM fun name =>
    match Stage.ofName? name with
    | some s => .ok s
    | none => .error (.unknownPass name)

/-- The sample methods, each as often as asked for and numbered by copy. -/
def sampleBatch (h : Hierarchy) (copies : Nat) : Run Batch := do
  let methods ← (samples h).mapError .sample
  let graphs ← (List.range copies).mapM fun k =>
    methods.mapM fun m => onFault (m.build s!"{m.name}#{k}")
  return { graphs := graphs.flatten }

/-- SSA form and the given stages, or the usual stages if none are given. -/
def optimizeBatch (ctx : Context) (stages : List Stage) (b : Batch) :
    Except Fault (List (Except Bailout Unit) × Batch) :=
  if stages.isEmpty then b.optimize ctx
  else b.apply (ExceptT.run (do
    Ssa.construct
    runStages ctx stages))

/-- Checks the methods that were not given up. -/
def checkOptimized (results : List (Except Bailout Unit)) (b : Batch) : Run Unit := do
  let finished := (b.graphs.zip results).filterMap fun (g, r) => r.toOption.map fun _ => g
  match ← onFault (Batch.check { graphs := finished }) with
  | [] => return
  | found => throw (.inconsistent found)

/-- Runs what the options ask for, and returns what is shown. -/
def execute (o : Options) : Run String := do
  let config ← configure o
  let copies ← (readCopies o.copies).mapError .invalidCopies
  let hierarchy ← onFault sampleClasses
  let batch ← sampleBatch hierarchy copies
  let stages ← listedStages o
  let (results, batch) ← onFault (optimizeBatch { config, hierarchy } stages batch)
  checkOptimized results batch
  if o.dump then onFault batch.text else return ""

/-- What a run leaves behind. -/
structure Outcome where
  code : Nat := 0
  output : String := ""
  errors : String := ""
  /-- The time it took is to be shown. -/
  timed : Bool := false

def Outcome.failed (f : Failure) : Outcome := { code := f.code, errors := s!"Error: {f.message}\n" }

/-- Runs a command line. -/
def run (args : List String) : Outcome :=
  match Options.ofArgs args with
  | .error arg => .failed (.unexpected arg)
  | .ok o =>
    match execute o with
    | .error f => .failed f
    | .ok output => { output, timed := o.time }

end Midend.Bench
