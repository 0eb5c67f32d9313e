import Midend.Calls.Site

/-! # Recognized methods

Calls of core library methods whose meaning is known become instructions, and type tests become inline code.
-/

namespace Midend.Calls

/-- The load of a character code, behind checks of the receiver, the index and the bounds. -/
def charCodeLoad (site : Site) (cls : ClassId) : Edit Inst := do
  let call := site.inst
  let string ← argumentValue call 0
  let index ← argumentValue call 1
  insertReceiverCheck site
  insertCheckSmi call index
  insertCheck call (.checkArrayBound cls string index)
  return .loadIndexed cls string index

def inlineCharCodeAt (site : Site) (cls : ClassId) : Edit Bool := do
  let load ← charCodeLoad site cls
  discard <| replaceCall site.inst load
  return true

def inlineCharAt (site : Site) (cls : ClassId) : Edit Bool := do
  let load ← charCodeLoad site cls
  let code ← insertValue site.inst load
  discard <| replaceCall site.inst (.unary .stringFromCharCode code)
  return true

/-- A method of one operand, its receiver. -/
def inlineUnary (site : Site) (opcode : Opcode) (receiver : InstId) : Edit Bool := do
  insertReceiverCheck site
  discard <| replaceCall site.inst (.unary opcode receiver)
  return true

def inlineMathFunction (site : Site) (function : Recognized) : Edit Bool := do
  insertReceiverCheck site
  let args ← argumentValues site.inst
  discard <| replaceCall site.inst (.invokeMath function args)
  return true

/-- A method of doubles. -/
def inlineDoubleMethod (site : Site) (method : Recognized) (receiver : InstId) : Edit Bool :=
  match method with
  | .doubleToInteger =>
    inlineUnary site (if site.cache.hasFailed .doubleToSmi then .doubleToInteger else .doubleToSmi)
      receiver
  | .doubleMod | .doublePow => inlineMathFunction site method
  | .doubleTruncate => inlineUnary site .doubleTruncate receiver
  | .doubleRound => inlineUnary site .doubleRound receiver
  | .doubleFloor => inlineUnary site .doubleFloor receiver
  | .doubleCeil => inlineUnary site .doubleCeil receiver
  | _ => pure false

def inlineMethod (ctx : Context) (site : Site) : Edit Bool := do
  let ic := site.cache
  if !ic.hasOneTarget then return false
  let cls ← ic.receiverAt 0
  let method := (← ctx.hierarchy.function (← ic.targetAt 0)).recognized
  let receiver ← argumentValue site.inst 0
  if method = .stringBaseCharCodeAt && ic.size = 1 && cls.isString then inlineCharCodeAt site cls
  else if method = .stringBaseCharAt && ic.size = 1 && cls = .oneByteString then inlineCharAt site cls
  else if method = .integerToDouble && cls = .smi then inlineUnary site .smiToDouble receiver
  else if cls ≠ .double then return false
  else inlineDoubleMethod site method receiver

/-- The answer that all receiver classes give to a type test. Null gives none. -/
def testOutcome? (h : Hierarchy) (type : ClassId) (checks : List Observation) :
    Except Fault (Option Bool) := do
  let classes ← checks.mapM (·.receiver)
  if ClassId.null ∈ classes then return none
  match classes.map (h.isSubtype · type) with
  | [] => return none
  | a :: rest => return if rest.all (· == a) then some a else none

/-- A type test whose outcome follows from the class of the value is decided behind a check of that class. -/
def foldTypeTest (site : Site) (value : InstId) (classes : InlineCache) (answer : Bool) : Edit Bool := do
  let call := site.inst
  insertClassCheck call value classes
  let pushes := (← (← get).inst call).arguments
  let result ← Edit.getConstant (.bool answer)
  Edit.replaceByExisting call result
  removePushes pushes
  return true

def inlineTypeTest (ctx : Context) (site : Site) : Edit Bool := do
  let call := site.inst
  if (← (← get).inst call).arguments.length < 2 then return false
  let value ← argumentValue call 0
  match ← (← get).constantOf (← argumentValue call 1) with
  | some (.type type) =>
    let negate := site.token == .isNot
    let unary ← site.cache.unary 0
    let outcome ← if unary.size ≤ ctx.config.maxPolymorphicChecks then
        testOutcome? ctx.hierarchy type unary.checks
      else pure none
    match outcome with
    | some answer => foldTypeTest site value unary (answer != negate)
    | none =>
      discard <| replaceCall call (.instanceOf type negate value)
      return true
  | _ => return false

/-- Calls of recognized mathematical functions become instructions. -/
def specializeStaticCall (ctx : Context) (call : InstId) : Edit Bool := do
  match ← (← get).inst call with
  | .staticCall function _ _ =>
    let method := (← ctx.hierarchy.function function).recognized
    let args ← argumentValues call
    match method, args with
    | .mathSqrt, [a] =>
      discard <| replaceCall call (.unary .mathSqrt a)
      return true
    | .mathSin, [_] | .mathCos, [_] =>
      discard <| replaceCall call (.invokeMath method args)
      return true
    | _, _ => return false
  | _ => return false

end Midend.Calls
