import Midend.Calls.Accessor
import Midend.Calls.Arithmetic
import Midend.Calls.Compare
import Midend.Calls.Method

/-! # Specialization of calls

Where feedback shows a few receiver classes, a call is replaced by typed instructions behind class checks, or
by a dispatch over those classes.
-/

namespace Midend.Calls

def setFeedback (call : InstId) (ic : InlineCache) : Edit Unit :=
  Edit.modifyNode call fun n => { n with inst := match n.inst with
    | .instanceCall c => .instanceCall { c with feedback := some ic }
    | i => i }

/-- Dispatches over the classes of `targets`. -/
def replaceByDispatch (call : InstId) (targets : InlineCache) (withChecks : Bool) : Edit Bool := do
  match ← (← get).inst call with
  | .instanceCall c =>
    let new ← Edit.addInst (.polymorphicCall c targets withChecks)
    Edit.replaceInst call new
    return true
  | _ => return true

/-- The call itself stays, as a dispatch over the classes it has seen. A single target is dispatched to
behind one check, or without any if the class hierarchy allows no other. -/
def dispatch (ctx : Context) (site : Site) (unary : InlineCache) : Edit Bool := do
  let unguarded ← if unary.hasOneTarget then pure (!(← needsClassCheck ctx site)) else pure false
  if unguarded then replaceByDispatch site.inst unary false
  else if unary.size ≤ ctx.config.maxPolymorphicChecks then
    if unary.hasOneTarget then insertReceiverCheck site
    replaceByDispatch site.inst unary (!unary.hasOneTarget)
  else return false

/-- Too many receiver classes were seen to dispatch over them. -/
def isMegamorphic (ctx : Context) (site : Site) (unary : InlineCache) : Edit Bool := do
  if unary.size ≤ ctx.config.maxPolymorphicChecks then return false
  needsClassCheck ctx site

def specializeSite (ctx : Context) (site : Site) : Edit Bool := do
  let token := site.token
  if token.isTypeTest then inlineTypeTest ctx site
  else
    let unary ← site.cache.unary 0
    if ← isMegamorphic ctx site unary then
      setFeedback site.inst unary
      return true
    firstChange [
      attemptIf (token == .assignIndex) (replaceByStoreIndexed site),
      attemptIf (token == .index) (replaceByLoadIndexed site),
      attemptIf token.isBinaryArithmetic (replaceByBinaryOp ctx site),
      attemptIf token.isUnary (replaceByUnaryOp ctx site),
      attemptIf (token == .get) (inlineGetter ctx site),
      attemptIf (token == .set) (inlineSetter ctx site unary),
      inlineMethod ctx site,
      dispatch ctx site unary]

def specializeCall (ctx : Context) (call : InstId) : Edit Bool := do
  match ← Site.at? (← get) call with
  | some site => specializeSite ctx site
  | none => return false

/-- Specializes what feedback allows. -/
def specialize (ctx : Context) : Edit Bool :=
  visitInsts fun i => do
    match ← (← get).opcode i with
    | .instanceCall => specializeCall ctx i
    | .staticCall => specializeStaticCall ctx i
    | .equalityCompare | .relationalOp | .strictCompare | .branch => specializeComparison ctx i
    | _ => return false

/-! ## Known receiver classes -/

/-- The feedback that one call on a receiver of a class would leave. -/
def foreseen (selector : String) (cls : ClassId) (target : FunctionId) : InlineCache :=
  { selector, tested := 1, checks := InlineCache.withReceiver [] cls target 1 }

/-- Gives a call that was never executed the feedback that the class of its receiver implies. -/
def foresee (ctx : Context) (call : InstId) : Edit Bool := do
  match ← (← get).inst call with
  | .instanceCall { selector, feedback := some ic, .. } =>
    if !ic.isEmpty || ic.tested ≠ 1 then return false
    let cls ← (← get).classOf (← argumentValue call 0)
    if cls = .dynamic || cls = .illegal then return false
    match ctx.hierarchy.resolve cls selector with
    | some target =>
      setFeedback call (foreseen selector cls target)
      return true
    | none => return false
  | _ => return false

/-- A dispatch whose receiver class is known needs no checks. -/
def narrowDispatch (call : InstId) : Edit Bool := do
  match ← (← get).inst call with
  | .polymorphicCall c targets true =>
    let cls ← (← get).classOf (← argumentValue call 0)
    if cls = .dynamic then return false
    match ← targets.targetFor cls with
    | some target =>
      let new ← Edit.addInst (.polymorphicCall c (foreseen targets.selector cls target) false)
      Edit.replaceInst call new
      return true
    | none => return false
  | _ => return false

/-- Specializes what the propagated classes allow. -/
def applyClasses (ctx : Context) : Edit Bool :=
  visitInsts fun i => do
    match ← (← get).opcode i with
    | .instanceCall =>
      if ← foresee ctx i then
        discard <| specializeCall ctx i
        return true
      else return false
    | .polymorphicInstanceCall => narrowDispatch i
    | .strictCompare | .branch => dropNumberCheck i
    | _ => return false

end Midend.Calls
