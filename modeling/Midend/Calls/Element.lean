import Midend.Calls.Site

/-! # Element access

Calls of `[]` and `[]=` on arrays become loads and stores behind checks of the receiver, the index and the
bounds.
-/

namespace Midend.Calls

/-- The load of the backing store of a growable array. -/
def backingStore (array : InstId) : Inst :=
  .loadField ClassId.growableDataOffset .array .unknown false array

/-- Both the array and the index are constants, and the index lies within the array. -/
def indexIsKnownWithin (array index : InstId) : Edit Bool := do
  let g ← get
  match ← g.constantOf array, ← g.smiConstantOf index with
  | some (.array _ es), some i => return 0 ≤ i ∧ i < es.length
  | _, _ => return false

/-- Inserts the checks of an access. Returns the array and class that are accessed, which for a growable
array are those of its backing store. -/
def prepareAccess (site : Site) (cls : ClassId) : Edit (InstId × ClassId) := do
  let call := site.inst
  let array ← argumentValue call 0
  let index ← argumentValue call 1
  insertClassCheck call array (← site.cache.unary 0)
  insertCheckSmi call index
  if !(← indexIsKnownWithin array index) then
    insertCheck call (.checkArrayBound cls array index)
  if cls = .growableArray then
    let store ← insertValue call (backingStore array)
    return (store, .array)
  return (array, cls)

def replaceByLoadIndexed (site : Site) : Edit Bool := do
  match ← soleReceiver? site with
  | none => return false
  | some cls =>
    if cls = .array || cls = .immutableArray || cls = .growableArray || cls.isTypedData then
      let index ← argumentValue site.inst 1
      let (array, cls) ← prepareAccess site cls
      discard <| replaceCall site.inst (.loadIndexed cls array index)
      return true
    else return false

/-- How the value of a store is checked. -/
inductive ValueCheck where
  /-- The store is left as a call. -/
  | refuse
  /-- Any value may be stored, which needs a write barrier. -/
  | anything
  | classes (ic : InlineCache)

/-- The class of the values that go into a typed array, for those that are stored to inline. -/
def storedClass? : ClassId → Option ClassId
  | .int8Array | .uint8Array | .uint8ClampedArray | .int16Array | .uint16Array => some .smi
  | .float32Array | .float64Array => some .double
  | _ => none

def valueCheck (ic : InlineCache) (cls : ClassId) : Except Fault ValueCheck := do
  if cls = .array || cls = .growableArray then
    if ← alwaysSmi ic 2 then return .classes (← ic.unary 2) else return .anything
  match storedClass? cls with
  | none => return .refuse
  | some expected =>
    if ic.tested ≤ 2 then return .refuse
    let checks ← ic.unary 2
    if ← onlyReceiver checks expected then return .classes checks else return .refuse

def replaceByStoreIndexed (site : Site) : Edit Bool := do
  match ← soleReceiver? site with
  | none => return false
  | some cls =>
    let store (check : Option InlineCache) : Edit Bool := do
      let call := site.inst
      let index ← argumentValue call 1
      let value ← argumentValue call 2
      let (array, cls) ← prepareAccess site cls
      check.forM (insertClassCheck call value)
      discard <| replaceCall call (.storeIndexed cls check.isNone array index value)
      return true
    match ← valueCheck site.cache cls with
    | .refuse => return false
    | .anything => store none
    | .classes ic => store (some ic)

end Midend.Calls
