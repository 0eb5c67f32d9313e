import Midend.Context

/-! # Local simplification

Every instruction is looked at once. One that has no effect is taken out, one that computes the value of an
existing definition gives way to it, and a comparison that only a branch looks at moves into the branch.
-/

namespace Midend.Simplify

inductive Outcome where
  /-- The instruction has no effect and nothing uses it. -/
  | drop
  /-- The instruction computes the same value as a definition that is already there. -/
  | standIn (d : InstId)

/-! ## Arithmetic -/

/-- Doubles below this magnitude are read as the integers they stand for. -/
def wholeLimit : Int := 9000000000000000

/-- The integer value of a constant, be it written as a double. -/
def integerValue? : Constant → Option Int
  | .double d => d.whole?.filter fun v => -wholeLimit < v && v < wholeLimit
  | c => c.int?

/-- What remains of an operation of which one operand is known. -/
inductive Identity where
  | constant
  | other
  /-- The other operand, if it is an unboxed double already. -/
  | otherDouble
deriving DecidableEq

/-- The simplification of `value op other`. Doubles keep products with zero, which may be NaN, and sums with
zero, which may be a negative zero. -/
def identity? (isDouble : Bool) (op : Token) (value : Int) : Option Identity :=
  match op, value with
  | .mul, 1 => some (if isDouble then .otherDouble else .other)
  | .mul, 0 => if isDouble then none else some .constant
  | .add, 0 => if isDouble then none else some .other
  | .bitAnd, 0 => some .constant
  | .bitAnd, -1 => some .other
  | .bitOr, 0 => some .other
  | .bitOr, -1 => some .constant
  | .bitXor, 0 => some .other
  | _, _ => none

def applyIdentity (g : FlowGraph) (isDouble : Bool) (op : Token) (constant other : InstId) :
    Except Fault (Option InstId) := do
  match ((← g.constantOf constant).bind integerValue?).bind (identity? isDouble op) with
  | some .constant => return some constant
  | some .other => return some other
  | some .otherDouble =>
    return if (← g.inst other).representation = .unboxedDouble then some other else none
  | none => return none

/-- A known operand may stand on either side. -/
def simplifyBinaryOp (g : FlowGraph) (isDouble : Bool) (i : InstId) : Except Fault (Option Outcome) := do
  match ← g.inst i with
  | .binaryOp _ op l r _ =>
    match ← applyIdentity g isDouble op l r with
    | some d => return some (.standIn d)
    | none => return (← applyIdentity g isDouble op r l).map .standIn
  | _ => return none

/-! ## Checks and assertions -/

/-- Every value of the class passes an assertion of the type. -/
def alwaysAssignable (h : Hierarchy) (type cls : ClassId) : Bool :=
  if type = .int then cls == .smi || cls == .mint
  else if type = .double then cls == .double
  else if type = .bool then cls == .bool
  else cls != .dynamic && cls != .illegal && h.isAssignable cls type

/-- An assertion is redundant if the class of the value decides it, or if the value was asserted before. -/
def simplifyAssertion (h : Hierarchy) (g : FlowGraph) (i : InstId) (type : ClassId) (value : InstId) :
    Except Fault (Option Outcome) := do
  if alwaysAssignable h type (← g.useClass i 0) then return some (.standIn value)
  match ← g.inst value with
  | .assertAssignable inner _ => return if inner = type then some (.standIn value) else none
  | _ => return none

/-- The boolean that a comparison `e === true` comes down to. -/
def testedBoolean? (g : FlowGraph) (i : InstId) : Except Fault (Option InstId) := do
  match (← g.inst i).comparison? with
  | none => return none
  | some c =>
    if c.kind ≠ .strict || c.op ≠ .eqStrict then return none
    if (← g.constantOf c.right) != some (.bool true) then return none
    return if (← g.useClass i 0) = .bool then some c.left else none

def dropIf (condition : Bool) : Option Outcome := if condition then some .drop else none

def simplifyClassCheck (g : FlowGraph) (i : InstId) : Except Fault (Option Outcome) := do
  let cls ← g.useClass i 0
  match ← g.inst i with
  | .checkClass classes _ =>
    if cls = .dynamic then return none
    return dropIf (← classes.hasReceiver cls)
  | _ => return none

/-- A check that not both operands are small integers is redundant if one of them is a double. -/
def simplifyEitherNonSmi (g : FlowGraph) (i : InstId) : Except Fault (Option Outcome) := do
  if (← g.useClass i 0) = .double then return some .drop
  return dropIf ((← g.useClass i 1) == .double)

/-- What becomes of an instruction that is not a branch. -/
def outcome? (h : Hierarchy) (g : FlowGraph) (i : InstId) : Except Fault (Option Outcome) := do
  match ← g.opcode i with
  | .binarySmiOp | .binaryMintOp => simplifyBinaryOp g false i
  | .binaryDoubleOp => simplifyBinaryOp g true i
  | .assertBoolean =>
    if (← g.useClass i 0) = .bool then return some (.standIn (← g.arg i 0)) else return none
  | .assertAssignable =>
    match ← g.inst i with
    | .assertAssignable type value => simplifyAssertion h g i type value
    | _ => return none
  | .strictCompare => return (← testedBoolean? g i).map .standIn
  | .checkClass => simplifyClassCheck g i
  | .checkSmi => return dropIf ((← g.useClass i 0) == .smi)
  | .checkEitherNonSmi => simplifyEitherNonSmi g i
  | _ => return none

def apply (i : InstId) : Outcome → Edit Unit
  | .drop => Edit.remove i
  | .standIn d => do
    Edit.ensureSsaIndex d i
    Edit.replaceByExisting i d

/-! ## Branches -/

/-- Nothing between `first` and `last`, which stands behind it in the same block, may write memory or give
up. -/
def onlyPureBetween (g : FlowGraph) (first last : InstId) : Except Fault Bool := do
  let behind ← g.layout.after first
  if last ∉ behind then return false
  (behind.takeWhile (· != last)).allM fun i => do
    let d ← g.inst i
    return !d.hasSideEffect && !d.canDeoptimize

/-- The comparison that only this branch tests, if the branch can make it itself. -/
def mergeable? (g : FlowGraph) (branch : InstId) : Except Fault (Option (InstId × Comparison)) := do
  match ← testedBoolean? g branch with
  | none => return none
  | some compare =>
    match ← g.inst compare with
    | .compare c =>
      if (← g.inputUses compare) ≠ [⟨branch, 0⟩] then return none
      if !(← g.envUses compare).isEmpty then return none
      -- a comparison that may call out must not move across other effects
      if !c.isGeneric then return some (compare, c)
      return if ← onlyPureBetween g compare branch then some (compare, c) else none
    | _ => return none

/-- Moves the comparison that a branch tests into the branch. -/
def mergeComparison (branch : InstId) : Edit Bool := do
  match ← mergeable? (← get) branch with
  | none => return false
  | some (compare, c) =>
    Edit.setArg branch 0 c.left
    Edit.setArg branch 1 c.right
    Edit.modifyNode branch fun n => { n with inst := n.inst.mapComparison fun own =>
      { c with left := own.left, right := own.right } }
    if c.isGeneric then Edit.copyDeoptTarget branch compare
    Edit.remove compare
    return true

def simplifyInst (h : Hierarchy) (i : InstId) : Edit Bool := do
  if (← (← get).opcode i) = .branch then mergeComparison i
  else
    match ← outcome? h (← get) i with
    | some o =>
      apply i o
      return true
    | none => return false

end Simplify

/-- Simplifies every instruction on its own. -/
def simplify (ctx : Context) : Edit Bool := visitInsts (Simplify.simplifyInst ctx.hierarchy)

end Midend
