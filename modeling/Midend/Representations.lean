import Midend.Context

/-! # Representations

Phis of doubles, and of wide integers where these are kept unboxed, are kept unboxed. A conversion is
inserted wherever a value flows into an input that expects another representation.
-/

namespace Midend.Representations

/-- The unboxed representation of values of a class. -/
def unboxed? (unboxedMints : Bool) (cls : ClassId) : Option Representation :=
  if cls = .double then some .unboxedDouble
  else if cls = .mint && unboxedMints then some .unboxedMint
  else none

def unboxPhi (unboxedMints : Bool) (phi : InstId) : Edit Bool := do
  let g ← get
  match unboxed? unboxedMints (← g.classOf phi) with
  | none => return false
  | some unboxed =>
    match ← g.inst phi with
    | .phi slot inputs alive representation =>
      if representation = unboxed then return false
      Edit.setInst phi (.phi slot inputs alive unboxed)
      return true
    | _ => return false

def unboxPhis (unboxedMints : Bool) : Edit Bool := do
  anyChange (← get).reversePostorder fun b => do
    anyChange (← (← get).phis b) (unboxPhi unboxedMints)

/-! ## Conversions -/

/-- Puts one conversion in front of `before`, where it resumes if it gives up. -/
def insertStep (before value : InstId) (opcode : Opcode) : Edit InstId := do
  let converted ← Edit.addInst (.unary opcode value)
  let g ← get
  if (← g.inst converted).canDeoptimize && (← g.env before).isSome then
    Edit.copyDeoptTarget converted before
  Edit.insertBefore before converted
  discard <| Edit.allocSsaIndex converted
  return converted

/-- Unboxes a tagged value as a double. Small integer constants become double constants, and other small
integers are converted without a check. -/
def insertDouble (before d : InstId) : Edit InstId := do
  match ← (← get).smiConstantOf d with
  | some v =>
    let constant ← Edit.getConstant (.double (.ofInt v))
    insertStep before constant .unboxDouble
  | none =>
    if (← (← get).classOf d) = .smi then insertStep before d .smiToDouble
    else insertStep before d .unboxDouble

/-- Converts `d` in front of `before`, and returns the converted value. -/
def insertConversion (before d : InstId) (source target : Representation) : Edit InstId :=
  match source, target with
  | .tagged, .tagged | .unboxedDouble, .unboxedDouble | .unboxedMint, .unboxedMint => pure d
  | .tagged, .unboxedMint => insertStep before d .unboxInteger
  | .tagged, .unboxedDouble => insertDouble before d
  | .unboxedMint, .tagged => insertStep before d .boxInteger
  | .unboxedDouble, .tagged => insertStep before d .boxDouble
  | .unboxedMint, .unboxedDouble => do
    insertStep before (← insertStep before d .boxInteger) .unboxDouble
  | .unboxedDouble, .unboxedMint => do
    insertStep before (← insertStep before d .boxDouble) .unboxInteger

/-- The instruction in front of which a use is converted. An input of a phi is converted at the end of the
predecessor it comes from. Dead phis and instructions out of place are left aside. -/
def conversionPoint? (g : FlowGraph) (u : Use) : Except Fault (Option InstId) := do
  if (← g.opcode u.user) = .phi then
    if !(← g.isAlivePhi u.user) then return none
    match ← g.instBlock u.user with
    | none => return none
    | some b => return (← g.preds b)[u.index]?.bind g.lastInst
  return if g.isPlaced u.user then some u.user else none

/-- Converts a definition for one of its uses. -/
def convertUse (d : InstId) (source : Representation) (u : Use) : Edit Bool := do
  let g ← get
  let target := (← g.inst u.user).requiredRepresentation u.index
  if source = target then return false
  match ← conversionPoint? g u with
  | none => return false
  | some before =>
    Edit.setArg u.user u.index (← insertConversion before d source target)
    return true

def convertUses (d : InstId) : Edit Bool := do
  let g ← get
  let source := (← g.inst d).representation
  anyChange (← g.inputUses d) (convertUse d source)

/-- Converts the definitions of a block, the live phis first. -/
def convertBlock (b : BlockId) : Edit Bool := do
  let phis ← anyChange (← (← get).phis b) fun phi => do
    if ← (← get).isAlivePhi phi then convertUses phi else return false
  let insts ← anyChange ((← get).insts b) fun i => do
    if (← (← get).inst i).isDefinition then convertUses i else return false
  return phis || insts

end Representations

/-- Chooses how values are kept and inserts the conversions between them. -/
def selectRepresentations (ctx : Context) : Edit Bool := do
  let phis ← Representations.unboxPhis ctx.config.unboxedMints
  let initial ← anyChange (← get).initialDefinitions Representations.convertUses
  let blocks ← anyChange (← get).reversePostorder Representations.convertBlock
  return phis || initial || blocks

end Midend
