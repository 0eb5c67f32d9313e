import Midend.Calls.Site

/-! # Comparisons

Comparisons, alone or in a branch, are specialized in place for the classes of their operands.
-/

namespace Midend.Calls

def setComparison (i : InstId) (f : Comparison → Comparison) : Edit Unit :=
  Edit.modifyNode i fun n => { n with inst := n.inst.mapComparison f }

/-- The operands are now known to be of a class. -/
def setOperands (i : InstId) (cls : ClassId) : Edit Bool := do
  setComparison i fun c => { c with operands := cls }
  return true

def requireTwoSmis (i : InstId) (c : Comparison) : Edit Bool := do
  insertCheckSmi i c.left
  insertCheckSmi i c.right
  setOperands i .smi

/-- Feedback of a comparison that tells something about both operands. -/
def usefulFeedback? (c : Comparison) : Option InlineCache :=
  c.feedback.filter fun ic => !ic.isEmpty && 2 ≤ ic.tested

def specializeRelational (ctx : Context) (i : InstId) (c : Comparison) : Edit Bool := do
  if c.operands ≠ .dynamic then return false
  match usefulFeedback? c with
  | none => return false
  | some ic =>
    if onlyTwoSmis ic then requireTwoSmis i c
    else if ic.size ≠ 1 && twoMintsOrSmis ic && ctx.config.unboxedMints then setOperands i .mint
    else if suitsDoubles ic then setOperands i .double
    else return false

/-- Small integers mixed with null are compared as small integers, behind checks that admit null. -/
def specializeSmiOrNull (i : InstId) (c : Comparison) (ic : InlineCache) : Edit Bool := do
  insertClassCheck i c.left (← ic.unary 0)
  insertClassCheck i c.right (← ic.unary 1)
  setOperands i .smi

def isNullConstant (g : FlowGraph) (i : InstId) : Except Fault Bool := do
  match ← g.constantOf i with
  | some c => return c.isNull
  | none => return false

/-- Equality with null is identity. -/
def specializeNullEquality (i : InstId) (c : Comparison) : Edit Bool := do
  let op : Token := if c.op = .eq then .eqStrict else .neStrict
  setComparison i fun _ => .strict op c.left c.right
  return true

def specializeEquality (ctx : Context) (i : InstId) (c : Comparison) : Edit Bool := do
  if c.operands ≠ .dynamic then return false
  let g ← get
  if ← isNullConstant g c.left then specializeNullEquality i c
  else if ← isNullConstant g c.right then specializeNullEquality i c
  else
    match usefulFeedback? c with
    | none => return false
    | some ic =>
      let mints := twoMintsOrSmis ic && ctx.config.unboxedMints
      if onlyTwoSmis ic then requireTwoSmis i c
      else if ic.size = 1 && suitsDoubles ic then setOperands i .double
      else if mints then setOperands i .mint
      else if ic.allWithin 2 [.smi, .null] then specializeSmiOrNull i c ic
      else return false

def mayBeBoxedNumber (cls : ClassId) : Bool := cls == .dynamic || cls.isBoxedNumber

/-- Drops the number check of an identity comparison if one operand cannot be a boxed number. -/
def dropNumberCheck (i : InstId) : Edit Bool := do
  let g ← get
  match (← g.inst i).comparison? with
  | some c =>
    if c.kind = .strict && c.numberCheck then
      if mayBeBoxedNumber (← g.classOf c.left) then
        if mayBeBoxedNumber (← g.classOf c.right) then return false
      setComparison i fun c => { c with numberCheck := false }
      return true
    else return false
  | none => return false

def specializeComparison (ctx : Context) (i : InstId) : Edit Bool := do
  match (← (← get).inst i).comparison? with
  | none => return false
  | some c =>
    match c.kind with
    | .strict => dropNumberCheck i
    | .equality => specializeEquality ctx i c
    | .relational => specializeRelational ctx i c

end Midend.Calls
