/-! # Class ids

The run-time type tag of a value. The first ids belong to the core library classes, user classes start at
`ClassId.firstUser`. `dynamic` stands for an unknown class, `illegal` for one not computed yet.
-/

namespace Midend

structure ClassId where
  number : Nat
deriving DecidableEq, Inhabited

namespace ClassId

/-- Class ids have 32 bits, and of a larger number the low ones count. -/
def ofNat (n : Nat) : ClassId := ⟨n % 0x100000000⟩

@[match_pattern] def illegal : ClassId := ⟨0⟩
@[match_pattern] def dynamic : ClassId := ⟨1⟩
@[match_pattern] def null : ClassId := ⟨2⟩
@[match_pattern] def object : ClassId := ⟨3⟩
@[match_pattern] def bool : ClassId := ⟨4⟩
@[match_pattern] def smi : ClassId := ⟨5⟩
@[match_pattern] def mint : ClassId := ⟨6⟩
@[match_pattern] def bigint : ClassId := ⟨7⟩
@[match_pattern] def double : ClassId := ⟨8⟩
@[match_pattern] def oneByteString : ClassId := ⟨9⟩
@[match_pattern] def twoByteString : ClassId := ⟨10⟩
@[match_pattern] def array : ClassId := ⟨11⟩
@[match_pattern] def immutableArray : ClassId := ⟨12⟩
@[match_pattern] def growableArray : ClassId := ⟨13⟩
@[match_pattern] def int8Array : ClassId := ⟨14⟩
@[match_pattern] def uint8Array : ClassId := ⟨15⟩
@[match_pattern] def uint8ClampedArray : ClassId := ⟨16⟩
@[match_pattern] def int16Array : ClassId := ⟨17⟩
@[match_pattern] def uint16Array : ClassId := ⟨18⟩
@[match_pattern] def int32Array : ClassId := ⟨19⟩
@[match_pattern] def uint32Array : ClassId := ⟨20⟩
@[match_pattern] def float32Array : ClassId := ⟨21⟩
@[match_pattern] def float64Array : ClassId := ⟨22⟩
@[match_pattern] def externalUint8Array : ClassId := ⟨23⟩
@[match_pattern] def typeArguments : ClassId := ⟨24⟩
@[match_pattern] def type : ClassId := ⟨25⟩
@[match_pattern] def math : ClassId := ⟨26⟩
/-- The interface of the integer classes. -/
@[match_pattern] def int : ClassId := ⟨27⟩
/-- The interface of the integer classes and `double`. -/
@[match_pattern] def num : ClassId := ⟨28⟩
/-- The interface of the string classes. -/
@[match_pattern] def string : ClassId := ⟨29⟩

/-- The first id handed out to user classes. -/
def firstUser : Nat := 64

def isInteger (c : ClassId) : Bool := c == smi || c == mint || c == bigint

/-- Numbers that live in a box, so that being identical differs from being equal. -/
def isBoxedNumber (c : ClassId) : Bool := c == mint || c == bigint || c == double

def isString (c : ClassId) : Bool := c == oneByteString || c == twoByteString

def isTypedData (c : ClassId) : Bool :=
  int8Array.number ≤ c.number && c.number ≤ externalUint8Array.number

/-- Arrays of this class never change their length. -/
def isFixedLengthArray (c : ClassId) : Bool :=
  c == array || c == immutableArray || (c.isTypedData && c != externalUint8Array)

def isUser (c : ClassId) : Bool := firstUser ≤ c.number

/-- The names of the core classes, at their ids. -/
def coreNames : List String :=
  ["Illegal", "Dynamic", "Null", "Object", "Bool", "Smi", "Mint", "Bigint", "Double",
    "OneByteString", "TwoByteString", "Array", "ImmutableArray", "GrowableArray",
    "Int8Array", "Uint8Array", "Uint8ClampedArray", "Int16Array", "Uint16Array", "Int32Array",
    "Uint32Array", "Float32Array", "Float64Array", "ExternalUint8Array",
    "TypeArguments", "Type", "Math", "int", "num", "String"]

def text (c : ClassId) : String := coreNames[c.number]?.getD s!"cid{c.number}"

/-- The class of what is loaded from an array or string of this class. -/
def element : ClassId → ClassId
  | float32Array | float64Array => double
  | int8Array | uint8Array | uint8ClampedArray | externalUint8Array | int16Array | uint16Array
  | oneByteString | twoByteString => smi
  | _ => dynamic

/-- The byte offset of the length of fixed-length arrays, strings and typed data. -/
def lengthOffset : Nat := 8

/-- The byte offset of the backing store of a growable array. -/
def growableDataOffset : Nat := 8

/-- The byte offset of the length of a growable array. -/
def growableLengthOffset : Nat := 16

/-- Where values of this class keep their length, if they have one. -/
def lengthOffset? (c : ClassId) : Option Nat :=
  if c == growableArray then some growableLengthOffset
  else if c == array || c == immutableArray || c.isString || c.isTypedData then some lengthOffset
  else none

/-- Values of this class keep the length they were created with. -/
def hasFixedLength (c : ClassId) : Bool := c.isFixedLengthArray || c.isString

end ClassId

end Midend
