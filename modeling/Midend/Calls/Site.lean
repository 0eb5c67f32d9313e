import Midend.Context

/-! # Call sites

A call with feedback, the guards that are put in front of it, and the instructions that take its place. A
guard resumes where the call does.
-/

namespace Midend.Calls

/-- An instance call together with its feedback. -/
structure Site where
  inst : InstId
  selector : String
  token : Token
  cache : InlineCache

/-- The site of an instance call that was executed before. -/
def Site.at? (g : FlowGraph) (i : InstId) : Except Fault (Option Site) := do
  match ← g.inst i with
  | .instanceCall { selector, token, feedback := some cache, .. } =>
    return if cache.isEmpty then none else some { inst := i, selector, token, cache }
  | _ => return none

/-- The value pushed as argument `k` of a call. -/
def argumentValue (call : InstId) (k : Nat) : Edit InstId := do
  let g ← get
  g.arg (← itemAt (← g.inst call).arguments k) 0

def argumentValues (call : InstId) : Edit (List InstId) := do
  (List.range (← (← get).inst call).arguments.length).mapM (argumentValue call)

/-! ## Guards -/

/-- Puts a check in front of a call. -/
def insertCheck (call : InstId) (d : Inst) : Edit Unit := do
  let check ← Edit.addInst d
  Edit.copyDeoptTarget check call
  Edit.insertBefore call check

/-- Puts the computation of a value in front of a call. -/
def insertValue (call : InstId) (d : Inst) : Edit InstId := do
  let i ← Edit.addInst d
  Edit.insertBefore call i
  discard <| Edit.allocSsaIndex i
  return i

def insertCheckSmi (call value : InstId) : Edit Unit := insertCheck call (.unary .checkSmi value)

/-- Checks that a value is a small integer, unless it is known to be one. -/
def requireSmi (call value : InstId) : Edit Unit := do
  if (← (← get).classOf value) ≠ .smi then insertCheckSmi call value

/-- The instruction that checks that a value has one of the classes of a cache. -/
def classGuard (classes : InlineCache) (value : InstId) : Except Fault Inst := do
  if classes.size = 1 then
    if (← classes.receiverAt 0) = .smi then return .unary .checkSmi value
  return .checkClass classes value

def insertClassCheck (call value : InstId) (classes : InlineCache) : Edit Unit := do
  insertCheck call (← classGuard classes value)

/-- Checks that the receiver has one of the classes it was seen to have. -/
def insertReceiverCheck (site : Site) : Edit Unit := do
  let receiver ← argumentValue site.inst 0
  insertClassCheck site.inst receiver (← site.cache.unary 0)

/-- Whether the class of the receiver has to be checked before a call. It need not be when the receiver is
that of the method itself and no subclass of the method's owner overrides the selector. -/
def needsClassCheck (ctx : Context) (site : Site) : Edit Bool := do
  if !ctx.config.useClassHierarchy then return true
  let receiver ← argumentValue site.inst 0
  let g ← get
  match ← g.inst receiver, g.owner with
  | .parameter 0, some owner => return ctx.hierarchy.hasOverride owner site.selector
  | _, _ => return true

/-! ## Replacing calls -/

/-- Takes the pushes of a call out; what used one uses the pushed value. -/
def removePushes (pushes : List InstId) : Edit Unit :=
  pushes.forM fun push => do
    let value ← (← get).arg push 0
    Edit.replaceUses push value
    Edit.remove push

/-- Puts an instruction in the place of a call, whose pushes go away. -/
def replaceCall (call : InstId) (d : Inst) : Edit InstId := do
  let pushes := (← (← get).inst call).arguments
  let new ← Edit.addInst d
  Edit.replaceInst call new
  removePushes pushes
  return new

/-- Puts an instruction that cannot give up in the place of a call. -/
def replaceCallPlainly (call : InstId) (d : Inst) : Edit Unit := do
  let new ← replaceCall call d
  Edit.setEnv new none

/-! ## What feedback says -/

/-- Both operands were small integers, and nothing else was seen. -/
def onlyTwoSmis (ic : InlineCache) : Bool :=
  match ic.checks with
  | [c] => c.classes.take 2 == [.smi, .smi]
  | _ => false

def twoMintsOrSmis (ic : InlineCache) : Bool := ic.allWithin 2 [.smi, .mint]

/-- The receiver was always of one class. -/
def onlyReceiver (ic : InlineCache) (cls : ClassId) : Except Fault Bool := do
  if ic.size = 1 then return (← ic.receiverAt 0) == cls
  return false

/-- Both operands were always numbers, and at least once one of them was a double. That both were small
integers is left to the guard of the double operation. -/
def suitsDoubles (ic : InlineCache) : Bool :=
  ic.allWithin 2 [.smi, .double] && ic.checks.any fun c => ClassId.double ∈ c.classes.take 2

/-- Argument `k` was always a small integer. -/
def alwaysSmi (ic : InlineCache) (k : Nat) : Except Fault Bool := do
  if k < ic.tested && !ic.isEmpty then ic.checks.allM fun c => return (← c.classAt k) == .smi
  else return false

/-- The one class the receiver was seen to have. -/
def soleReceiver? (site : Site) : Except Fault (Option ClassId) := do
  let unary ← site.cache.unary 0
  if unary.size = 1 then return some (← unary.receiverAt 0) else return none

end Midend.Calls
