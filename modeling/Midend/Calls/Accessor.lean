import Midend.Calls.Element

/-! # Getters and setters

Calls of implicit getters and setters become accesses of the field, and calls of the length getters of the
core library become loads of the length.
-/

namespace Midend.Calls

/-- Where a length getter of the core library finds the length, and whether it never changes. -/
def lengthField? : Recognized → Option (Nat × Bool)
  | .objectArrayLength | .immutableArrayLength | .byteArrayBaseLength | .stringBaseLength =>
    some (ClassId.lengthOffset, true)
  | .growableArrayLength => some (ClassId.growableLengthOffset, false)
  | _ => none

/-- The load of the length of a fixed-length object. -/
def lengthLoad (recognized : Recognized) (object : InstId) : Inst :=
  .loadField ClassId.lengthOffset .smi recognized true object

def inlineFieldGetter (ctx : Context) (site : Site) (field : Field) : Edit Bool := do
  if ← needsClassCheck ctx site then insertReceiverCheck site
  let receiver ← argumentValue site.inst 0
  replaceCallPlainly site.inst
    (.loadField field.offset field.guarded .unknown field.isFinal receiver)
  return true

def inlineLength (site : Site) (recognized : Recognized) (offset : Nat) (immutable : Bool) :
    Edit Bool := do
  insertReceiverCheck site
  let receiver ← argumentValue site.inst 0
  replaceCallPlainly site.inst (.loadField offset .smi recognized immutable receiver)
  return true

/-- The capacity of a growable array is the length of its backing store. -/
def inlineCapacity (site : Site) : Edit Bool := do
  insertReceiverCheck site
  let receiver ← argumentValue site.inst 0
  let store ← insertValue site.inst (backingStore receiver)
  replaceCallPlainly site.inst (lengthLoad .objectArrayLength store)
  return true

/-- A string is empty when its length is zero. -/
def inlineIsEmpty (site : Site) : Edit Bool := do
  insertReceiverCheck site
  let receiver ← argumentValue site.inst 0
  let length ← insertValue site.inst (lengthLoad .stringBaseLength receiver)
  let zero ← Edit.getConstant (.smi 0)
  replaceCallPlainly site.inst (.compare (.strict .eqStrict length zero))
  return true

def inlineGetter (ctx : Context) (site : Site) : Edit Bool := do
  let ic := site.cache
  let target ← ctx.hierarchy.function (← ic.targetAt 0)
  match target.kind with
  | .implicitGetter field => attemptIf ic.hasOneTarget (inlineFieldGetter ctx site field)
  | _ =>
    match target.recognized, lengthField? target.recognized with
    | .growableArrayCapacity, _ => inlineCapacity site
    | .stringBaseIsEmpty, _ => attemptIf ic.hasOneTarget (inlineIsEmpty site)
    | recognized, some (offset, immutable) =>
      attemptIf ic.hasOneTarget (inlineLength site recognized offset immutable)
    | _, none => return false

def inlineFieldSetter (ctx : Context) (site : Site) (field : Field) : Edit Bool := do
  if ← needsClassCheck ctx site then insertReceiverCheck site
  let receiver ← argumentValue site.inst 0
  let value ← argumentValue site.inst 1
  let smi ← alwaysSmi site.cache 1
  if smi then insertCheckSmi site.inst value
  replaceCallPlainly site.inst (.storeField field.offset (!smi) receiver value)
  return true

/-- `unary` is the view of the site's feedback that tests the receiver alone. -/
def inlineSetter (ctx : Context) (site : Site) (unary : InlineCache) : Edit Bool := do
  if !unary.hasOneTarget then return false
  match (← ctx.hierarchy.function (← unary.targetAt 0)).kind with
  | .implicitSetter field => inlineFieldSetter ctx site field
  | _ => return false

end Midend.Calls
