import Midend.Calls.Site

/-! # Operator calls

Calls of arithmetic operators become typed operations where feedback shows numbers of one kind.
-/

namespace Midend.Calls

/-- The class for which a binary operator is specialized, if it is. -/
def operandClass? (ic : InlineCache) (op : Token) (unboxedMints : Bool) :
    Except Fault (Option ClassId) := do
  match op with
  | .add | .sub =>
    if onlyTwoSmis ic then
      return some (if ic.hasFailed .binarySmiOp then .mint else .smi)
    else if twoMintsOrSmis ic && unboxedMints then
      return if ic.hasFailed .binaryMintOp then none else some .mint
    else return if suitsDoubles ic then some .double else none
  | .mul =>
    if onlyTwoSmis ic then return if ic.hasFailed .binarySmiOp then none else some .smi
    else return if suitsDoubles ic then some .double else none
  | .div => return if suitsDoubles ic then some .double else none
  | .mod => return if onlyTwoSmis ic then some .smi else none
  | .bitAnd | .bitOr | .bitXor =>
    return if onlyTwoSmis ic then some .smi else if twoMintsOrSmis ic then some .mint else none
  | .shl | .shr =>
    if onlyTwoSmis ic then
      if ic.hasFailed .shiftMintOp then return none
      return some (if ic.hasFailed .binarySmiOp then .mint else .smi)
    else if twoMintsOrSmis ic then
      if !(← onlyReceiver (← ic.unary 1) .smi) then return none
      return if ic.hasFailed .shiftMintOp then none else some .mint
    else return none
  | .truncDiv =>
    if onlyTwoSmis ic then return if ic.hasFailed .binarySmiOp then none else some .smi
    else return none
  | _ => return none

/-- The mask that replaces a remainder by `v`: one less than a power of two. -/
def moduloMask? (v : Int) : Option Int :=
  if 0 < v ∧ Word.and v (v - 1) = 0 then some (v - 1) else none

def replaceByDoubleOp (call : InstId) (op : Token) (l r : InstId) : Edit Bool := do
  insertCheck call (.binary .checkEitherNonSmi l r)
  discard <| replaceCall call (.binaryOp .binaryDoubleOp op l r true)
  return true

def replaceByMintOp (call : InstId) (op : Token) (l r : InstId) : Edit Bool := do
  let opcode : Opcode := match op with
    | .shl | .shr => .shiftMintOp
    | _ => .binaryMintOp
  discard <| replaceCall call (.binaryOp opcode op l r true)
  return true

/-- A remainder by a power of two keeps the low bits. -/
def replaceByMask (call l r : InstId) : Edit Bool := do
  match (← (← get).smiConstantOf r).bind moduloMask? with
  | none => return false
  | some mask =>
    insertCheckSmi call l
    let m ← Edit.getConstant (.smi mask)
    discard <| replaceCall call (.smiOp .bitAnd l m)
    return true

/-- The operands are checked, and a constant goes to the right if the operator allows it. -/
def replaceBySmiOp (call : InstId) (op : Token) (l r : InstId) : Edit Bool := do
  requireSmi call l
  requireSmi call r
  let swap := (← (← get).constantOf l).isSome && (op == .add || op == .mul)
  discard <| replaceCall call (if swap then .smiOp op r l else .smiOp op l r)
  return true

def replaceByBinaryOp (ctx : Context) (site : Site) : Edit Bool := do
  if site.cache.tested < 2 then return false
  let op := site.token
  match ← operandClass? site.cache op ctx.config.unboxedMints with
  | none => return false
  | some cls =>
    let call := site.inst
    let l ← argumentValue call 0
    let r ← argumentValue call 1
    if cls = .double then replaceByDoubleOp call op l r
    else if cls = .mint then attemptIf ctx.config.unboxedMints (replaceByMintOp call op l r)
    else if op = .mod then replaceByMask call l r
    else replaceBySmiOp call op l r

def replaceByUnaryOp (ctx : Context) (site : Site) : Edit Bool := do
  let call := site.inst
  let op := site.token
  let ic := site.cache
  let input ← argumentValue call 0
  if ← onlyReceiver ic .smi then
    insertCheckSmi call input
    discard <| replaceCall call (.unaryOp .unarySmiOp op input)
    return true
  if op = .bitNot && ic.allWithin 1 [.smi, .mint] && ctx.config.unboxedMints then
    discard <| replaceCall call (.unaryOp .unaryMintOp op input)
    return true
  if op = .negate then
    if ← onlyReceiver ic .double then
      insertReceiverCheck site
      let minusOne ← Edit.getConstant (.double (.ofInt (-1)))
      discard <| replaceCall call (.binaryOp .binaryDoubleOp .mul input minusOne true)
      return true
  return false

end Midend.Calls
