import Midend.Inst.Basic
import Midend.Inst.Value

/-! # Traits of instructions

Which instructions may give up, which may write memory, and which depend on memory. An instruction that
does not depend on memory is a function of its inputs and may be shared and moved. The written form of an
instruction leaves this out, and its own settings too; for a closer look at it they are written behind it.
-/

namespace Midend

namespace Inst

/-- The instruction may give up at run time, and so needs an environment to resume from. -/
def canDeoptimize : Inst → Bool
  | instanceCall _ | polymorphicCall .. | staticCall .. | checkClass .. | checkArrayBound ..
  | instanceOf .. | assertAssignable .. | binary .. => true
  | unary opcode _ =>
    match opcode with
    | .checkSmi | .unboxDouble | .unboxInteger | .doubleToSmi | .doubleToInteger | .assertBoolean
    | .throw => true
    | _ => false
  | binaryOp opcode op _ _ overflow =>
    match opcode, op with
    | .binaryDoubleOp, _ => false
    | _, .bitAnd | _, .bitOr | _, .bitXor => false
    | .binarySmiOp, .add | .binarySmiOp, .sub | .binarySmiOp, .mul => overflow
    | _, _ => true
  | unaryOp _ op _ => op == .negate
  | compare c | branch c _ _ => c.isGeneric
  | _ => false

/-- The instruction may write memory or call out. -/
def hasSideEffect : Inst → Bool
  | instanceCall _ | polymorphicCall .. | staticCall .. | storeLocal .. | storeField ..
  | storeIndexed .. => true
  | unary opcode _ => opcode == .throw
  | compare c | branch c _ _ => c.isGeneric
  | _ => false

/-- Writing memory may change what the instruction does, or it has to stay where it is for another reason.
The class of a string is not fixed, since strings may be moved out of the heap. -/
def affectedBySideEffect : Inst → Except Fault Bool
  | constant _ | binary .. | binaryOp .. | unaryOp .. | checkArrayBound .. | instanceOf ..
  | assertAssignable .. | invokeMath .. => .ok false
  | unary opcode _ => .ok (opcode == .ret || opcode == .throw)
  | checkClass ic _ => do
    if ← ic.hasReceiver .oneByteString then return true
    ic.hasReceiver .twoByteString
  | loadField _ _ _ immutable _ => .ok !immutable
  | compare c => .ok c.isGeneric
  | _ => .ok true

/-! ## The closer look -/

def settingText (name : String) (b : Bool) : String := name ++ "=" ++ (if b then "true" else "false")

/-- The settings of an instruction that its written form does not show. -/
def traits : Inst → List String
  | phi slot _ alive _ =>
    let shown := match slot with
      | some s => s!"slot=Some({s})"
      | none => "slot=None"
    [shown, settingText "alive" alive]
  | instanceCall c =>
    ["token=" ++ c.token.name, s!"checked={c.checked}"] ++ (c.feedback.map InlineCache.text).toList
  | polymorphicCall _ _ w => [settingText "with_checks" w]
  | binaryOp _ _ _ _ o => [settingText "overflow" o]
  | loadField _ _ r i _ => ["recognized=" ++ r.name, settingText "immutable" i]
  | storeField _ b _ _ | storeIndexed _ b _ _ _ => [settingText "barrier" b]
  | compare c | branch c _ _ =>
    [settingText "number_check" c.numberCheck, settingText "generic" c.isGeneric]
  | _ => []

/-- A letter for each property: definition, terminator, assertion, deoptimization, side effect, affected by
side effects, and used by the unoptimized code. -/
def flags (i : Inst) (isUsed : Bool) : Except Fault String := do
  let affected ← i.affectedBySideEffect
  let letters := [(i.isDefinition, "D"), (i.isTerminator, "T"), (i.isTypeAssertion, "A"),
    (i.canDeoptimize, "d"), (i.hasSideEffect, "s"), (affected, "a"), (isUsed, "u")]
  return String.join ((letters.filter (·.1)).map (·.2))

end Inst

end Midend
