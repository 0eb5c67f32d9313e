import Midend.Constant
import Midend.Hierarchy
import Midend.Inst.Opcode

/-! # Instructions

The closed set of instructions, their inputs, pushed arguments and successors. An input is a definition
whose value is read; a pushed argument is a `pushArgument` instruction that a call pops.
-/

namespace Midend

inductive CompareKind where
  /-- The same object. -/
  | strict
  /-- Equality, which a class may define. -/
  | equality
  /-- Ordering. -/
  | relational
deriving DecidableEq, Inhabited

/-- A comparison, alone or as the condition of a branch. -/
structure Comparison where
  kind : CompareKind
  op : Token
  left : InstId
  right : InstId
  /-- The class both operands are known to have; `dynamic` if the comparison is a call. -/
  operands : ClassId := .dynamic
  feedback : Option InlineCache := none
  /-- Boxed numbers have to be compared by value. -/
  numberCheck : Bool := false
deriving DecidableEq, Inhabited

namespace Comparison

def strict (op : Token) (l r : InstId) : Comparison :=
  { kind := .strict, op, left := l, right := r, numberCheck := true }

def equality (op : Token) (l r : InstId) (ic : Option InlineCache) : Comparison :=
  { kind := .equality, op, left := l, right := r, feedback := ic }

def relational (op : Token) (l r : InstId) (ic : Option InlineCache) : Comparison :=
  { kind := .relational, op, left := l, right := r, feedback := ic }

/-- The comparison is still made by a call. -/
def isGeneric (c : Comparison) : Bool :=
  c.kind != .strict && c.operands != .smi && c.operands != .double && c.operands != .mint

def opcode (c : Comparison) : Opcode :=
  match c.kind with
  | .strict => .strictCompare
  | .equality => .equalityCompare
  | .relational => .relationalOp

def operandRepresentation (c : Comparison) : Representation :=
  if c.kind = .strict then .tagged
  else if c.operands = .double then .unboxedDouble
  else if c.operands = .mint then .unboxedMint
  else .tagged

end Comparison

/-- A call that is dispatched on its receiver. -/
structure Call where
  selector : String
  token : Token
  /-- The pushed arguments, receiver first. -/
  arguments : List InstId
  feedback : Option InlineCache
  /-- The number of leading arguments whose classes the feedback tests. -/
  checked : Nat
deriving DecidableEq, Inhabited

inductive Inst where
  | constant (value : Constant)
  | parameter (index : Nat)
  /-- Reads a local variable; gone once the graph is in SSA form. -/
  | loadLocal (slot : Nat)
  /-- Writes a local variable and evaluates to what it wrote; gone once the graph is in SSA form. -/
  | storeLocal (slot : Nat) (value : InstId)
  | pushArgument (value : InstId)
  | phi (slot : Option Nat) (inputs : List InstId) (alive : Bool) (representation : Representation)
  | instanceCall (call : Call)
  /-- A call dispatched over the classes of `targets`, which it tests itself if `withChecks`. -/
  | polymorphicCall (call : Call) (targets : InlineCache) (withChecks : Bool)
  /-- A call of a known function, of a known result class if it is a constructor. -/
  | staticCall (function : FunctionId) (arguments : List InstId) (result : ClassId)
  | allocateObject (cls : ClassId) (arguments : List InstId)
  /-- A new fixed-length array of the pushed arguments. -/
  | createArray (arguments : List InstId)
  | unary (opcode : Opcode) (value : InstId)
  | binary (opcode : Opcode) (left right : InstId)
  /-- `overflow` says that the result may leave the small integers. -/
  | binaryOp (opcode : Opcode) (op : Token) (left right : InstId) (overflow : Bool)
  | unaryOp (opcode : Opcode) (op : Token) (value : InstId)
  | checkClass (classes : InlineCache) (value : InstId)
  | checkArrayBound (cls : ClassId) (array index : InstId)
  | loadField (offset : Nat) (result : ClassId) (recognized : Recognized) (immutable : Bool)
      (object : InstId)
  | storeField (offset : Nat) (barrier : Bool) (object value : InstId)
  | loadIndexed (cls : ClassId) (array index : InstId)
  | storeIndexed (cls : ClassId) (barrier : Bool) (array index value : InstId)
  | compare (comparison : Comparison)
  | instanceOf (type : ClassId) (negate : Bool) (value : InstId)
  | assertAssignable (type : ClassId) (value : InstId)
  | invokeMath (function : Recognized) (inputs : List InstId)
  /-- The first input, known to lie in a range; a second input is what the range depends on. -/
  | constraint (range : Range) (inputs : List InstId)
  | goto (target : BlockId)
  | branch (condition : Comparison) (onTrue onFalse : BlockId)
deriving Inhabited

namespace Inst

/-- A small integer operation that may overflow. -/
def smiOp (op : Token) (l r : InstId) : Inst := binaryOp .binarySmiOp op l r true

def opcode : Inst → Opcode
  | constant _ => .constant
  | parameter _ => .parameter
  | loadLocal _ => .loadLocal
  | storeLocal .. => .storeLocal
  | pushArgument _ => .pushArgument
  | phi .. => .phi
  | instanceCall _ => .instanceCall
  | polymorphicCall .. => .polymorphicInstanceCall
  | staticCall .. => .staticCall
  | allocateObject .. => .allocateObject
  | createArray _ => .createArray
  | unary opcode _ | binary opcode _ _ | binaryOp opcode .. | unaryOp opcode .. => opcode
  | checkClass .. => .checkClass
  | checkArrayBound .. => .checkArrayBound
  | loadField .. => .loadField
  | storeField .. => .storeField
  | loadIndexed .. => .loadIndexed
  | storeIndexed .. => .storeIndexed
  | compare c => c.opcode
  | instanceOf .. => .instanceOf
  | assertAssignable .. => .assertAssignable
  | invokeMath .. => .invokeMathCFunction
  | constraint .. => .constraint
  | goto _ => .goto
  | branch .. => .branch

/-- The value inputs. -/
def args : Inst → List InstId
  | storeLocal _ a | pushArgument a | unary _ a | unaryOp _ _ a | checkClass _ a | loadField _ _ _ _ a
  | instanceOf _ _ a | assertAssignable _ a => [a]
  | binary _ a b | binaryOp _ _ a b _ | checkArrayBound _ a b | storeField _ _ a b
  | loadIndexed _ a b => [a, b]
  | storeIndexed _ _ a b c => [a, b, c]
  | phi _ as _ _ | invokeMath _ as | constraint _ as => as
  | compare c | branch c _ _ => [c.left, c.right]
  | constant _ | parameter _ | loadLocal _ | instanceCall _ | polymorphicCall .. | staticCall ..
  | allocateObject .. | createArray _ | goto _ => []

/-- Every input `k` replaced by what `f k` makes of it. -/
def mapArgs (f : Nat → InstId → InstId) : Inst → Inst
  | storeLocal s a => storeLocal s (f 0 a)
  | pushArgument a => pushArgument (f 0 a)
  | unary o a => unary o (f 0 a)
  | unaryOp o t a => unaryOp o t (f 0 a)
  | checkClass ic a => checkClass ic (f 0 a)
  | loadField o r m i a => loadField o r m i (f 0 a)
  | instanceOf t n a => instanceOf t n (f 0 a)
  | assertAssignable t a => assertAssignable t (f 0 a)
  | binary o a b => binary o (f 0 a) (f 1 b)
  | binaryOp o t a b v => binaryOp o t (f 0 a) (f 1 b) v
  | checkArrayBound c a b => checkArrayBound c (f 0 a) (f 1 b)
  | storeField o w a b => storeField o w (f 0 a) (f 1 b)
  | loadIndexed c a b => loadIndexed c (f 0 a) (f 1 b)
  | storeIndexed k w a b c => storeIndexed k w (f 0 a) (f 1 b) (f 2 c)
  | phi s as l r => phi s (as.mapIdx f) l r
  | invokeMath m as => invokeMath m (as.mapIdx f)
  | constraint r as => constraint r (as.mapIdx f)
  | compare c => compare { c with left := f 0 c.left, right := f 1 c.right }
  | branch c t e => branch { c with left := f 0 c.left, right := f 1 c.right } t e
  | i => i

/-- Input `k` is now `d`. -/
def setArg (i : Inst) (k : Nat) (d : InstId) : Inst := i.mapArgs fun j a => if j = k then d else a

/-- The pushed arguments of a call, an allocation or an array. -/
def arguments : Inst → List InstId
  | instanceCall c | polymorphicCall c _ _ => c.arguments
  | staticCall _ as _ | allocateObject _ as | createArray as => as
  | _ => []

/-- The blocks control may go to next. -/
def successors : Inst → List BlockId
  | goto t => [t]
  | branch _ t e => [t, e]
  | _ => []

/-- Successor `k` is now `b`, if there is a successor `k`. -/
def setSuccessor? (i : Inst) (k : Nat) (b : BlockId) : Option Inst :=
  match i, k with
  | goto _, 0 => some (goto b)
  | branch c _ e, 0 => some (branch c b e)
  | branch c t _, 1 => some (branch c t b)
  | _, _ => none

def comparison? : Inst → Option Comparison
  | compare c | branch c _ _ => some c
  | _ => none

def mapComparison (f : Comparison → Comparison) : Inst → Inst
  | compare c => compare (f c)
  | branch c t e => branch (f c) t e
  | i => i

def constant? : Inst → Option Constant
  | constant c => some c
  | _ => none

def isPhi : Inst → Bool
  | phi .. => true
  | _ => false

/-- A phi that some load or phi needs. -/
def isAlivePhi : Inst → Bool
  | phi _ _ alive _ => alive
  | _ => false

/-- A phi comes to life; anything else stays as it is. -/
def revive : Inst → Inst
  | phi s as _ r => phi s as true r
  | i => i

def isTerminator (i : Inst) : Bool := i.opcode.isTerminator

def isDefinition (i : Inst) : Bool := i.opcode.isDefinition

def isTypeAssertion (i : Inst) : Bool := i.opcode.isTypeAssertion

end Inst

end Midend
