/-! # Opcodes and representations -/

namespace Midend

/-- The kind of an instruction. -/
inductive Opcode where
  | constant | parameter | loadLocal | storeLocal | pushArgument | phi
  | instanceCall | polymorphicInstanceCall | staticCall | allocateObject | createArray
  | checkSmi | checkClass | checkEitherNonSmi | checkArrayBound
  | binarySmiOp | binaryMintOp | shiftMintOp | binaryDoubleOp | unarySmiOp | unaryMintOp
  | boxDouble | unboxDouble | boxInteger | unboxInteger
  | mathSqrt | invokeMathCFunction
  | doubleToSmi | doubleToInteger | smiToDouble
  | doubleTruncate | doubleRound | doubleFloor | doubleCeil
  | booleanNegate | stringFromCharCode
  | loadField | storeField | loadIndexed | storeIndexed
  | strictCompare | equalityCompare | relationalOp
  | instanceOf | assertAssignable | assertBoolean
  | constraint | goto | branch | ret | throw
deriving DecidableEq, Inhabited

namespace Opcode

def all : List Opcode :=
  [constant, parameter, loadLocal, storeLocal, pushArgument, phi,
    instanceCall, polymorphicInstanceCall, staticCall, allocateObject, createArray,
    checkSmi, checkClass, checkEitherNonSmi, checkArrayBound,
    binarySmiOp, binaryMintOp, shiftMintOp, binaryDoubleOp, unarySmiOp, unaryMintOp,
    boxDouble, unboxDouble, boxInteger, unboxInteger, mathSqrt, invokeMathCFunction,
    doubleToSmi, doubleToInteger, smiToDouble, doubleTruncate, doubleRound, doubleFloor, doubleCeil,
    booleanNegate, stringFromCharCode, loadField, storeField, loadIndexed, storeIndexed,
    strictCompare, equalityCompare, relationalOp, instanceOf, assertAssignable, assertBoolean,
    constraint, goto, branch, ret, throw]

def name : Opcode → String
  | constant => "Constant" | parameter => "Parameter" | loadLocal => "LoadLocal"
  | storeLocal => "StoreLocal" | pushArgument => "PushArgument" | phi => "Phi"
  | instanceCall => "InstanceCall" | polymorphicInstanceCall => "PolymorphicInstanceCall"
  | staticCall => "StaticCall" | allocateObject => "AllocateObject" | createArray => "CreateArray"
  | checkSmi => "CheckSmi" | checkClass => "CheckClass" | checkEitherNonSmi => "CheckEitherNonSmi"
  | checkArrayBound => "CheckArrayBound" | binarySmiOp => "BinarySmiOp"
  | binaryMintOp => "BinaryMintOp" | shiftMintOp => "ShiftMintOp" | binaryDoubleOp => "BinaryDoubleOp"
  | unarySmiOp => "UnarySmiOp" | unaryMintOp => "UnaryMintOp" | boxDouble => "BoxDouble"
  | unboxDouble => "UnboxDouble" | boxInteger => "BoxInteger" | unboxInteger => "UnboxInteger"
  | mathSqrt => "MathSqrt" | invokeMathCFunction => "InvokeMathCFunction"
  | doubleToSmi => "DoubleToSmi" | doubleToInteger => "DoubleToInteger" | smiToDouble => "SmiToDouble"
  | doubleTruncate => "DoubleTruncate" | doubleRound => "DoubleRound" | doubleFloor => "DoubleFloor"
  | doubleCeil => "DoubleCeil" | booleanNegate => "BooleanNegate"
  | stringFromCharCode => "StringFromCharCode" | loadField => "LoadField" | storeField => "StoreField"
  | loadIndexed => "LoadIndexed" | storeIndexed => "StoreIndexed" | strictCompare => "StrictCompare"
  | equalityCompare => "EqualityCompare" | relationalOp => "RelationalOp" | instanceOf => "InstanceOf"
  | assertAssignable => "AssertAssignable" | assertBoolean => "AssertBoolean"
  | constraint => "Constraint" | goto => "Goto" | branch => "Branch" | ret => "Return"
  | throw => "Throw"

def ofName? (s : String) : Option Opcode := all.find? (·.name == s)

/-- Ends a block. -/
def isTerminator : Opcode → Bool
  | goto | branch | ret | throw => true
  | _ => false

/-- Produces a value. -/
def isDefinition : Opcode → Bool
  | checkSmi | checkClass | checkEitherNonSmi | checkArrayBound
  | goto | branch | ret | throw => false
  | _ => true

/-- A type assertion, which has to stay in place. -/
def isTypeAssertion : Opcode → Bool
  | assertAssignable | assertBoolean => true
  | _ => false

end Opcode

/-- How generated code stores a value. -/
inductive Representation where
  /-- A tagged pointer or a small integer. -/
  | tagged
  | unboxedDouble
  /-- An unboxed 64-bit integer. -/
  | unboxedMint
deriving DecidableEq, Inhabited

def Representation.text : Representation → String
  | tagged => "tagged"
  | unboxedDouble => "double"
  | unboxedMint => "mint"

end Midend
