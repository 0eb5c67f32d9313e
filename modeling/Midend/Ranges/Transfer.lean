import Midend.Ranges.Symbols

/-! # Ranges of values

The range of the result of each kind of instruction, given the ranges of its inputs, and the test whether an
index provably lies within an array.
-/

namespace Midend.Ranges

/-- The largest number of elements of an array. -/
def arrayMaxElements : Int := 0xfffffff

/-- The largest number of characters of a string. -/
def stringMaxElements : Int := 0xfffffff

/-- The range of a length, by the getter that yields it. -/
def lengthRange : Recognized → Range
  | .objectArrayLength | .immutableArrayLength => .between 0 arrayMaxElements
  | .byteArrayBaseLength => .between 0 Word.smiMax
  | .stringBaseLength => .between 0 stringMaxElements
  | _ => .unknown

/-- The range of the elements of an array. -/
def elementRange : ClassId → Range
  | .int8Array => .between (-128) 127
  | .uint8Array | .uint8ClampedArray | .externalUint8Array | .oneByteString => .between 0 0xff
  | .int16Array => .between (-32768) 32767
  | .uint16Array | .twoByteString => .between 0 0xffff
  | _ => .unknown

variable (g : FlowGraph)

/-! ## Constraints -/

/-- Where neither boundary is known to be the tighter one, the tighter of the constants they come to. -/
def tightenConstant (s : Side) (constraint : Boundary) (value : Option Range) : Except Fault Boundary := do
  let v ← outermost g s value
  let c ← resolve g s constraint
  match s with
  | .lower => larger g v c
  | .upper => smaller g v c

/-- The boundary at one end of what satisfies a constraint and lies in the range of the value. -/
def tighten (s : Side) (constraint : Boundary) (value : Option Range) : Except Fault Boundary := do
  match value.map s.pick with
  | none => if s.isLimit constraint then tightenConstant g s constraint value else return constraint
  | some v =>
    if s.isLimit v && !s.isLimit constraint then return constraint
    if s.isLimit constraint && !s.isLimit v then return v
    if ← sameBoundary g constraint v then return constraint
    match ← align? g s s (← fold g s constraint) (← fold g s v) with
    | some (a, b) => return s.tighter a b
    | none => tightenConstant g s constraint value

/-- The range of a value that satisfies a constraint. -/
def intersect (constraint : Range) (value : Option Range) : Except Fault Range := do
  let min ← tighten g .lower constraint.min value
  let max ← tighten g .upper constraint.max value
  return ⟨min, max⟩

/-! ## Phis -/

/-- The range that covers the ranges of all inputs, given the boundaries of those seen before. -/
def coverInputs : List InstId → Option Range → Except Fault Range
  | [], seen => return seen.getD .unknown
  | d :: rest, seen => do
    match ← g.range d with
    | none => return .unknown
    | some r =>
      let lo ← outermost g .lower (some r)
      let hi ← outermost g .upper (some r)
      match seen with
      | none => coverInputs rest (some ⟨lo, hi⟩)
      | some s => coverInputs rest (some ⟨← smaller g s.min lo, ← larger g s.max hi⟩)

def phiRange (phi : InstId) : Except Fault Range := do coverInputs g (← g.args phi) none

/-! ## Arithmetic -/

/-- The sum of a symbol and a constant. -/
def addSymbol? : Boundary → Boundary → Option Boundary
  | .symbol d o, .constant c | .constant c, .symbol d o =>
    if Word.IsSmi c ∧ Word.IsSmi (o + c) then some (.symbol d (o + c)) else none
  | _, _ => none

/-- The difference of a symbol and a constant. -/
def subSymbol? : Boundary → Boundary → Option Boundary
  | .symbol d o, .constant c =>
    if Word.IsSmi c ∧ Word.IsSmi (o - c) then some (.symbol d (o - c)) else none
  | _, _ => none

def isArrayLength (d : InstId) : Except Fault Bool := do
  match ← g.inst d with
  | .loadField _ _ recognized _ _ =>
    return recognized == .objectArrayLength || recognized == .immutableArrayLength
  | _ => return false

/-- One end of a sum. The left operand has boundary `left` there. -/
def addEnd (s : Side) (left : Boundary) (l r : Range) : Except Fault Boundary := do
  match addSymbol? left (s.pick r) with
  | some b => return b
  | none => Boundary.add (← outermost g s (some l)) (← outermost g s (some r)) s.overflow

def Side.opposite : Side → Side
  | lower => upper
  | upper => lower

/-- One end of a difference. The left operand has boundary `left` there. -/
def subEnd (s : Side) (left : Boundary) (l r : Range) : Except Fault Boundary := do
  match subSymbol? left (s.opposite.pick r) with
  | some b => return b
  | none => Boundary.sub (← outermost g s (some l)) (← outermost g s.opposite (some r)) s.overflow

/-- The boundaries of an operation before they are brought back to the small integers. The left operand has
the boundaries of `left`. -/
def binaryEnds (op : Token) (left l r : Range) : Except Fault (Option Range) := do
  match op with
  | .add => return some ⟨← addEnd g .lower left.min l r, ← addEnd g .upper left.max l r⟩
  | .sub => return some ⟨← subEnd g .lower left.min l r, ← subEnd g .upper left.max l r⟩
  | .bitAnd =>
    if 0 ≤ (← (← outermost g .lower (some r)).value) then
      return some ⟨.constant 0, ← outermost g .upper (some r)⟩
    if 0 ≤ (← (← outermost g .lower (some l)).value) then
      return some ⟨.constant 0, ← outermost g .upper (some l)⟩
    return none
  | _ => return none

/-- The range of a small integer operation, and whether it can overflow if that is known. The length of an
array stands for itself. -/
def binaryRange (op : Token) (l r : InstId) : Except Fault (Range × Option Bool) := do
  match ← g.range l, ← g.range r with
  | some lr, some rr =>
    let left := if ← isArrayLength g l then ⟨.symbol l 0, .symbol l 0⟩ else lr
    match ← binaryEnds g op left lr rr with
    | none => return (.unknown, none)
    | some ends =>
      let low ← resolve g .lower ends.min
      let high ← resolve g .upper ends.max
      return (⟨ends.min.clamp, ends.max.clamp⟩, some (low.overflowed || high.overflowed))
  | _, _ => return (.unknown, none)

/-! ## Bounds checks -/

/-- An index of the given range provably lies within an array of the given length. -/
def isWithin (index : Range) (length : Boundary) : Except Fault Bool := do
  if (← (← outermost g .lower (some index)).value) < 0 then return false
  let max ← fold g .upper index.max
  if max.overflowed then return false
  if (← (← resolve g .upper max).value) < (← (← resolve g .lower length).value) then return true
  let length ← fold g .upper length
  if length.overflowed then return false
  match ← align? g .upper .lower max length with
  | some (a, b) => return a.offset < b.offset
  | none => return false

/-- The bounds check cannot fail. -/
def isRedundant (check : InstId) (length : Boundary) : Except Fault Bool := do
  match ← g.inst check with
  | .checkArrayBound cls _ index =>
    if !cls.hasFixedLength || length.isUnknown then return false
    match ← g.range index with
    | some r => isWithin g r length
    | none => return false
  | _ => return false

end Midend.Ranges
