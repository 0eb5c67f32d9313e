import Midend.Graph.Edit
import Midend.Ranges.Transfer

/-! # Constraints

A comparison or a check says more about a value than its definition does. A constraint gives the value a new
name behind such a point, and every use that the point dominates refers to that name.
-/

namespace Midend.Ranges

/-- A point behind which a constraint holds. -/
inductive Position where
  | start (b : BlockId)
  | after (i : InstId)

structure Progress where
  /-- The constraints made so far, the first one first. -/
  constraints : List InstId := []
  /-- The lengths of arrays, as boundaries. -/
  lengths : List (InstId × Boundary) := []
  /-- Loads of lengths that are only symbols and in no block. -/
  lengthLoads : List InstId := []
  changed : Bool := false

abbrev Analysis := StateT Progress Edit

/-! ## Renaming -/

/-- The use lies behind the position. A use in a phi lies at the end of its predecessor. -/
def isBehind (g : FlowGraph) (p : Position) (u : Use) : Except Fault Bool := do
  let point ← match p with
    | .start b => pure (some (b, none))
    | .after i => pure ((← g.instBlock i).map fun b => (b, some i))
  match point, ← g.instBlock u.user with
  | some (b, anchor), some home =>
    if (← g.opcode u.user) = .phi then
      match (← g.preds home)[u.index]? with
      | some pred => g.dominates b pred
      | none => return false
    else if home ≠ b then g.dominates b home
    else
      match anchor with
      | some i => return u.user ∈ (← g.layout.after i)
      | none => return true
  | _, _ => return false

/-- The use is that of a dead phi. -/
def isDead (g : FlowGraph) (u : Use) : Except Fault Bool := do
  if (← g.opcode u.user) = .phi then return !(← g.isAlivePhi u.user) else return false

/-- The uses of `d` behind the position become uses of `name`. -/
def renameBehind (p : Position) (d name : InstId) : Edit Unit := do
  (← (← get).inputUses d).forM fun u => do
    if u.user = name then return
    if ← isDead (← get) u then return
    if ← isBehind (← get) p u then Edit.setArg u.user u.index name

/-- Constrains `d` behind the position. What the range depends on becomes a second input. Constants are not
constrained. -/
def constrain (d : InstId) (range : Range) (p : Position) (dependency : Option InstId) : Analysis Unit := do
  let g ← getThe FlowGraph
  if (← g.constantOf d).isSome then return
  let inputs ← match dependency with
    | some b => if (← g.constantOf b).isNone then pure [d, b] else pure [d]
    | none => pure [d]
  let constraint ← Edit.addInst (.constraint range inputs)
  renameBehind p d constraint
  match p with
  | .start b => Edit.prepend b constraint
  | .after i => Edit.insertAfter i constraint
  discard <| Edit.allocSsaIndex constraint
  modify fun s => { s with constraints := s.constraints ++ [constraint] }

/-! ## Lengths -/

/-- The getter that yields the length of an array of a class. -/
def lengthGetter (cls : ClassId) : Recognized :=
  if cls = .array then .objectArrayLength
  else if cls = .immutableArray then .immutableArrayLength
  else if cls.isString then .stringBaseLength
  else .byteArrayBaseLength

/-- A load of a length that serves as a symbol and is never placed. -/
def lengthSymbol (array : InstId) (cls : ClassId) : Analysis Boundary := do
  match cls.lengthOffset? with
  | none => return .unknown
  | some offset =>
    let getter := lengthGetter cls
    let load ← Edit.addInst (.loadField offset .smi getter true array)
    discard <| Edit.allocSsaIndex load
    Edit.setRange load (some (lengthRange getter))
    modify fun s => { s with lengthLoads := load :: s.lengthLoads }
    return .symbol load 0

/-- The length of an array that was not asked for before. An array that was made with a known length has
that length. -/
def newLength (array : InstId) (cls : ClassId) : Analysis Boundary := do
  let g ← getThe FlowGraph
  match ← g.inst array with
  | .staticCall _ arguments result =>
    match result == .array, arguments.getLast? with
    | true, some pushed =>
      let length ← g.arg pushed 0
      ofDefinition g length 0
    | _, _ => lengthSymbol array cls
  | .createArray arguments => return .constant arguments.length
  | .constant (.array _ elements) => return .constant elements.length
  | _ => lengthSymbol array cls

/-- The length of the array of a bounds check, the same for all checks of the array. -/
def arrayLength (check : InstId) : Analysis Boundary := do
  match ← (← getThe FlowGraph).inst check with
  | .checkArrayBound cls array _ =>
    match (← get).lengths.lookup array with
    | some b => return b
    | none =>
      let b ← newLength array cls
      modify fun s => { s with lengths := (array, b) :: s.lengths }
      return b
  | _ => return .unknown

/-! ## What comparisons and checks say -/

/-- The range of the left operand of a comparison that holds. -/
def comparedRange? (g : FlowGraph) (op : Token) (right : InstId) : Except Fault (Option Range) := do
  match op with
  | .eq => return some ⟨← ofDefinition g right 0, ← ofDefinition g right 0⟩
  | .ne => return some .unknown
  | .lt => return some ⟨.minSmi, ← ofDefinition g right (-1)⟩
  | .gt => return some ⟨← ofDefinition g right 1, .maxSmi⟩
  | .lte => return some ⟨.minSmi, ← ofDefinition g right 0⟩
  | .gte => return some ⟨← ofDefinition g right 0, .maxSmi⟩
  | _ => return none

/-- Constrains an operand of the comparison of a branch on both ways out. -/
def constrainAfterBranch (d : InstId) (u : Use) : Analysis Unit := do
  let g ← getThe FlowGraph
  match ← g.inst u.user with
  | .branch c onTrue onFalse =>
    if c.kind = .strict || c.operands ≠ .smi then return
    let (other, op) := if u.index = 0 then (c.right, c.op) else (c.left, c.op.flipped)
    match ← comparedRange? g op other with
    | none => return
    | some holds =>
      match ← comparedRange? g (← op.negated) other with
      | none => return
      | some fails =>
        constrain d holds (.start onTrue) (some other)
        constrain d fails (.start onFalse) (some other)
  | _ => return

/-- The largest index of an array of the given length. -/
def lastIndex : Boundary → Except Fault Boundary
  | .constant v => return .constant (← orFault (Word.sub? v 1) .overflow)
  | .symbol d offset => return .symbol d (← orFault (Word.sub? offset 1) .overflow)
  | .unknown => return .maxSmi

/-- An index that passed a check lies within the array, as long as the length cannot change. -/
def constrainAfterCheck (d check : InstId) : Analysis Unit := do
  match ← (← getThe FlowGraph).inst check with
  | .checkArrayBound cls _ _ =>
    if !cls.hasFixedLength then return
    let max ← lastIndex (← arrayLength check)
    constrain d ⟨.constant 0, max⟩ (.after check) none
  | _ => return

/-- Constrains a value behind the branches and bounds checks that use it. -/
def constrainUses (d : InstId) : Analysis Unit := do
  (← (← getThe FlowGraph).inputUses d).forM fun u => do
    let g ← getThe FlowGraph
    if (← g.instBlock u.user).isNone then return
    -- an earlier constraint may have renamed the use
    if (← g.arg u.user u.index) ≠ d then return
    match ← g.opcode u.user with
    | .branch => constrainAfterBranch d u
    | .checkArrayBound => if u.index = 1 then constrainAfterCheck d u.user
    | _ => return

/-- Constrains the constraints from position `k` on further. -/
def constrainFurther : Nat → Nat → Analysis Unit
  | 0, _ => throwThe Fault .unsettled
  | steps + 1, k => do
    match (← get).constraints[k]? with
    | none => return
    | some c =>
      constrainUses c
      constrainFurther steps (k + 1)

/-- Constrains the values behind small integer checks, and then all small integers behind the branches and
bounds checks that use them. -/
def insertConstraints (checks values : List InstId) : Analysis Unit := do
  checks.forM fun check => do
    constrain (← (← getThe FlowGraph).arg check 0) .unknown (.after check) none
  values.forM constrainUses
  let n := (← getThe FlowGraph).nodes.size + 2
  constrainFurther (n * n * n) 0

end Midend.Ranges
