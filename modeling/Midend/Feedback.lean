import Midend.ClassId
import Midend.Fault

/-! # Type feedback

The inline cache of a call site: which classes its leading arguments were seen to have and where the call
went for each. Views that test one argument only are records of their own.
-/

namespace Midend

/-- A reason for which optimized code gave up at a call site before. -/
inductive DeoptReason where
  | binarySmiOp | binaryMintOp | shiftMintOp | checkSmi | doubleToSmi
deriving DecidableEq, Inhabited

namespace DeoptReason

def all : List DeoptReason := [binarySmiOp, binaryMintOp, shiftMintOp, checkSmi, doubleToSmi]

def name : DeoptReason → String
  | binarySmiOp => "BINARY_SMI_OP"
  | binaryMintOp => "BINARY_MINT_OP"
  | shiftMintOp => "SHIFT_MINT_OP"
  | checkSmi => "CHECK_SMI"
  | doubleToSmi => "DOUBLE_TO_SMI"

def ofName? (s : String) : Option DeoptReason := all.find? (·.name == s)

/-- The bit of a reason in a set of reasons. -/
def bit : DeoptReason → Nat
  | binarySmiOp => 1
  | binaryMintOp => 2
  | shiftMintOp => 4
  | checkSmi => 8
  | doubleToSmi => 16

end DeoptReason

/-- One observation: the classes of the tested arguments, receiver first, where the call went, and how often. -/
structure Observation where
  classes : List ClassId
  target : FunctionId
  count : Nat
deriving DecidableEq, Inhabited

namespace Observation

def classAt (o : Observation) (arg : Nat) : Except Fault ClassId := itemAt o.classes arg

def receiver (o : Observation) : Except Fault ClassId := o.classAt 0

end Observation

structure InlineCache where
  /-- The selector of the call. -/
  selector : String
  /-- The number of leading arguments whose classes are recorded. -/
  tested : Nat
  failed : List DeoptReason := []
  checks : List Observation := []
deriving DecidableEq, Inhabited

namespace InlineCache

/-- Records an observation of all tested arguments. -/
def add (ic : InlineCache) (classes : List ClassId) (target : FunctionId) : Except Fault InlineCache :=
  if classes.length = ic.tested then .ok { ic with checks := ic.checks ++ [⟨classes, target, 1⟩] }
  else .error .wrongCount

/-- The checks with one more receiver class; small integers always come first. -/
def withReceiver (checks : List Observation) (cls : ClassId) (target : FunctionId) (count : Nat) :
    List Observation :=
  if cls = .smi then ⟨[cls], target, count⟩ :: checks else checks ++ [⟨[cls], target, count⟩]

/-- Records an observation of the receiver, in a cache that tests nothing else. -/
def addReceiver (ic : InlineCache) (cls : ClassId) (target : FunctionId) (count : Nat) :
    Except Fault InlineCache :=
  if ic.tested = 1 then .ok { ic with checks := withReceiver ic.checks cls target count }
  else .error .wrongCount

def withFailure (ic : InlineCache) (r : DeoptReason) : InlineCache :=
  if r ∈ ic.failed then ic else { ic with failed := ic.failed ++ [r] }

def hasFailed (ic : InlineCache) (r : DeoptReason) : Bool := r ∈ ic.failed

/-- The failures as one number, a bit for each reason. -/
def failureBits (ic : InlineCache) : Nat := ic.failed.foldl (fun n r => n + r.bit) 0

def size (ic : InlineCache) : Nat := ic.checks.length

def isEmpty (ic : InlineCache) : Bool := ic.checks.isEmpty

def checkAt (ic : InlineCache) (i : Nat) : Except Fault Observation := itemAt ic.checks i

def receiverAt (ic : InlineCache) (i : Nat) : Except Fault ClassId := do (← ic.checkAt i).receiver

def targetAt (ic : InlineCache) (i : Nat) : Except Fault FunctionId := do return (← ic.checkAt i).target

/-- All observations went to one function, and there is at least one. -/
def hasOneTarget (ic : InlineCache) : Bool :=
  match ic.checks with
  | [] => false
  | c :: cs => cs.all (·.target == c.target)

def hasReceiver (ic : InlineCache) (cls : ClassId) : Except Fault Bool :=
  ic.checks.anyM fun c => return (← c.receiver) == cls

/-- The first observation whose receiver has the class. -/
def findReceiver (checks : List Observation) (cls : ClassId) : Except Fault (Option Observation) :=
  checks.findM? fun c => return (← c.receiver) == cls

/-- Where the call goes for a receiver class, as far as it was observed. -/
def targetFor (ic : InlineCache) (cls : ClassId) : Except Fault (Option FunctionId) := do
  return (← findReceiver ic.checks cls).map (·.target)

/-- Adds `count` to the first check of the class, or a check of its own if there is none. -/
def merge (checks : List Observation) (cls : ClassId) (target : FunctionId) (count : Nat) :
    Except Fault (List Observation) := do
  match checks.findIdx? (·.classes.head? == some cls) with
  | none => return withReceiver checks cls target count
  | some i =>
    let old ← itemAt checks i
    if old.count + count < Word.countLimit then
      return checks.set i { old with count := old.count + count }
    else throw .overflow

/-- The cache that tests argument `arg` alone. Observations of equal classes are merged and their counts
added up; those that never happened are left out. -/
def unary (ic : InlineCache) (arg : Nat) : Except Fault InlineCache := do
  if ic.tested ≤ arg then throw .wrongCount
  let checks ← ic.checks.foldlM (fun cs c => do
    if c.count = 0 then return cs
    merge cs (← c.classAt arg) c.target c.count) []
  return { selector := ic.selector, tested := 1, failed := ic.failed, checks }

/-- Something was observed, and the first `count` classes of every observation are among `allowed`. -/
def allWithin (ic : InlineCache) (count : Nat) (allowed : List ClassId) : Bool :=
  !ic.checks.isEmpty && ic.checks.all fun c => (c.classes.take count).all (· ∈ allowed)

def text (ic : InlineCache) : String :=
  let shown := ic.checks.map fun c => ", ".intercalate (c.classes.map ClassId.text)
  s!"IC[{ic.selector}: " ++ " | ".intercalate shown ++ "]"

end InlineCache

end Midend
