import Midend.Ranges.Symbols

/-! # Induction variables

A loop phi that depends on one value from outside the loop, and otherwise only on additions to and
subtractions from itself, is bounded by that value on one side if all steps go the same way.
-/

namespace Midend.Ranges

/-- The way a value moves, or its sign. -/
inductive Direction where
  | unknown
  | positive
  | negative
  | both
deriving DecidableEq

namespace Direction

def inverted : Direction → Direction
  | positive => negative
  | negative => positive
  | d => d

/-- The direction after one more step. -/
def after (d step : Direction) : Direction :=
  if d = unknown then step else if d = step then d else both

end Direction

variable (g : FlowGraph)

/-- The sign of a value; zero counts as positive. -/
def direction (d : InstId) : Except Fault Direction := do
  match ← g.smiConstantOf d with
  | some v => return if 0 ≤ v then .positive else .negative
  | none =>
    match ← g.range d with
    | none => return .unknown
    | some r =>
      if 0 ≤ (← (← outermost g .lower (some r)).value) then return .positive
      if (← (← outermost g .upper (some r)).value) ≤ 0 then return .negative
      return .unknown

/-- What is known of a loop phi while its inputs are followed. -/
structure Induction where
  /-- The value from outside the loop. -/
  initial : Option InstId := none
  direction : Direction := .unknown
  seen : List InstId := []
  /-- The definitions still to be looked at, the next one first. -/
  waiting : List InstId := []

namespace Induction

/-- The value below a constraint is to be looked at, unless it was before. -/
def mark (v : Induction) (d : InstId) : Except Fault Induction := do
  let d ← unwrap g d
  return if d ∈ v.seen then v else { v with seen := d :: v.seen, waiting := d :: v.waiting }

/-- A step by a value of some direction, starting from `d`. -/
def step (v : Induction) (way : Direction) (d : InstId) : Except Fault Induction :=
  mark g { v with direction := v.direction.after way } d

/-- An input of a phi; `none` says that there are two values from outside the loop. -/
def addInput (header : BlockId) (v : Induction) (input : InstId) : Except Fault (Option Induction) := do
  let inside ← match ← g.instBlock input with
    | some b => g.loopContains header b
    | none => pure false
  if inside then return some (← mark g v input)
  match v.initial with
  | none => return some { v with initial := some input }
  | some i => return if i = input then some v else none

def addInputs (header : BlockId) : List InstId → Induction → Except Fault (Option Induction)
  | [], v => return some v
  | d :: rest, v => do
    match ← addInput g header v d with
    | some v => addInputs header rest v
    | none => return none

/-- Looks at one definition; `none` says that the phi is no induction variable. -/
def visit (header : BlockId) (v : Induction) (d : InstId) : Except Fault (Option Induction) := do
  match ← g.inst d with
  | .phi _ inputs _ _ => addInputs g header inputs v
  | .binaryOp .binarySmiOp .add l r _ =>
    let right ← Ranges.direction g r
    let left ← Ranges.direction g l
    if right ≠ .unknown then return some (← step g v right l)
    if left ≠ .unknown then return some (← step g v left r)
    return none
  | .binaryOp .binarySmiOp .sub l r _ =>
    let right ← Ranges.direction g r
    if right = .unknown then return none
    return some (← step g v right.inverted l)
  | _ => return none

/-- Looks at all that waits. Each definition waits once. -/
def follow (header : BlockId) : Nat → Induction → Except Fault (Option Induction)
  | 0, _ => throw .unsettled
  | steps + 1, v =>
    match v.waiting with
    | [] => return some v
    | d :: rest => do
      match ← visit g header { v with waiting := rest } d with
      | some v => follow header steps v
      | none => return none

end Induction

/-- The range of an induction variable of the loop with the given header. -/
def inductionRange? (header : BlockId) (phi : InstId) : Except Fault (Option Range) := do
  let start ← Induction.mark g {} phi
  match ← Induction.follow g header (g.nodes.size + 1) start with
  | some { initial := some i, direction, .. } =>
    match direction with
    | .positive => return some ⟨← ofDefinition g i 0, .maxSmi⟩
    | .negative => return some ⟨.minSmi, ← ofDefinition g i 0⟩
    | .unknown | .both => return some .unknown
  | _ => return none

end Midend.Ranges
