import Midend.Inst.Basic

/-! # The values of instructions

The class and representation of what an instruction produces, the representation it expects of its inputs,
and the key under which instructions that compute the same value are found.
-/

namespace Midend

namespace Inst

/-- The class of the result, as far as the instruction alone determines it. -/
def resultClass : Inst → ClassId
  | constant c => c.classId
  | binaryOp opcode .. =>
    match opcode with
    | .binarySmiOp => .smi
    | .binaryDoubleOp => .double
    | _ => .dynamic
  | unaryOp opcode .. => if opcode = .unarySmiOp then .smi else .dynamic
  | unary opcode _ =>
    match opcode with
    | .boxDouble | .unboxDouble | .mathSqrt | .smiToDouble | .doubleTruncate | .doubleRound
    | .doubleFloor | .doubleCeil => .double
    | .unboxInteger => .mint
    | .doubleToSmi => .smi
    | .booleanNegate | .assertBoolean => .bool
    | .stringFromCharCode => .oneByteString
    | _ => .dynamic
  | invokeMath .. => .double
  | compare _ | instanceOf .. => .bool
  | loadField _ r _ _ _ => r
  | loadIndexed c _ _ => c.element
  | staticCall _ _ r => r
  | allocateObject c _ => c
  | createArray _ => .array
  | constraint .. => .smi
  | _ => .dynamic

def representation : Inst → Representation
  | phi _ _ _ r => r
  | binaryOp opcode .. =>
    match opcode with
    | .binaryDoubleOp => .unboxedDouble
    | .binaryMintOp | .shiftMintOp => .unboxedMint
    | _ => .tagged
  | unaryOp opcode .. => if opcode = .unaryMintOp then .unboxedMint else .tagged
  | unary opcode _ =>
    match opcode with
    | .unboxDouble | .mathSqrt | .smiToDouble | .doubleTruncate | .doubleRound | .doubleFloor
    | .doubleCeil => .unboxedDouble
    | .unboxInteger => .unboxedMint
    | _ => .tagged
  | invokeMath .. => .unboxedDouble
  | _ => .tagged

/-- The representation the instruction expects of input `k`. -/
def requiredRepresentation (i : Inst) (k : Nat) : Representation :=
  match i with
  | phi _ _ _ r => r
  | binaryOp opcode .. =>
    match opcode with
    | .binaryDoubleOp => .unboxedDouble
    | .binaryMintOp => .unboxedMint
    | .shiftMintOp => if k = 0 then .unboxedMint else .tagged
    | _ => .tagged
  | unaryOp opcode .. => if opcode = .unaryMintOp then .unboxedMint else .tagged
  | unary opcode _ =>
    match opcode with
    | .boxDouble | .mathSqrt | .doubleToSmi | .doubleToInteger | .doubleTruncate | .doubleRound
    | .doubleFloor | .doubleCeil => .unboxedDouble
    | .boxInteger => .unboxedMint
    | _ => .tagged
  | invokeMath .. => .unboxedDouble
  | compare c | branch c _ _ => c.operandRepresentation
  | _ => .tagged

end Inst

/-- What tells two instructions of one opcode and equal inputs apart. -/
inductive ValueMark where
  | plain
  /-- Constants are compared by their contents. -/
  | constant (contents : String)
  | op (op : Token) (overflow : Bool)
  | classes (classes : List ClassId)
  | cls (cls : ClassId)
  | offset (offset : Nat)
  | compare (op : Token) (operands : ClassId)
  | type (type : ClassId) (negate : Bool)
  | recognized (function : Recognized)
deriving DecidableEq, Inhabited

/-- Instructions of equal keys compute the same value, as long as neither depends on memory. -/
structure ValueKey where
  opcode : Opcode
  args : List InstId
  mark : ValueMark
deriving DecidableEq, Inhabited

namespace Inst

def valueMark : Inst → Except Fault ValueMark
  | constant c => .ok (.constant c.contents)
  | binaryOp _ op _ _ overflow => .ok (.op op overflow)
  | unaryOp _ op _ => .ok (.op op false)
  | checkClass ic _ => do return .classes (← ic.checks.mapM (·.receiver))
  | checkArrayBound c _ _ => .ok (.cls c)
  | loadField o _ _ _ _ => .ok (.offset o)
  | loadIndexed c _ _ => .ok (.cls c)
  | compare c => .ok (.compare c.op c.operands)
  | instanceOf t n _ => .ok (.type t n)
  | assertAssignable t _ => .ok (.type t false)
  | invokeMath f _ => .ok (.recognized f)
  | _ => .ok .plain

def valueKey (i : Inst) : Except Fault ValueKey := do
  return { opcode := i.opcode, args := i.args, mark := ← i.valueMark }

end Inst

end Midend
