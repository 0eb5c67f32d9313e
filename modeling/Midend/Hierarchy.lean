import Midend.Feedback
import Midend.Table

/-! # Classes and functions

The class hierarchy with its method tables, as the run-time system hands it to the optimizer. Every class
has at most one superclass, and a method that is added again under a name replaces the old one.
-/

namespace Midend

/-- Core library functions whose meaning is known. -/
inductive Recognized where
  | unknown
  | objectArrayLength | immutableArrayLength | growableArrayLength | growableArrayCapacity
  | byteArrayBaseLength
  | stringBaseLength | stringBaseIsEmpty | stringBaseCharCodeAt | stringBaseCharAt
  | integerToDouble
  | doubleToInteger | doubleTruncate | doubleRound | doubleFloor | doubleCeil | doubleMod | doublePow
  | mathSqrt | mathSin | mathCos
deriving DecidableEq, Inhabited

namespace Recognized

def all : List Recognized :=
  [unknown, objectArrayLength, immutableArrayLength, growableArrayLength, growableArrayCapacity,
    byteArrayBaseLength, stringBaseLength, stringBaseIsEmpty, stringBaseCharCodeAt, stringBaseCharAt,
    integerToDouble, doubleToInteger, doubleTruncate, doubleRound, doubleFloor, doubleCeil, doubleMod,
    doublePow, mathSqrt, mathSin, mathCos]

def name : Recognized → String
  | unknown => "Unknown"
  | objectArrayLength => "ObjectArrayLength"
  | immutableArrayLength => "ImmutableArrayLength"
  | growableArrayLength => "GrowableArrayLength"
  | growableArrayCapacity => "GrowableArrayCapacity"
  | byteArrayBaseLength => "ByteArrayBaseLength"
  | stringBaseLength => "StringBaseLength"
  | stringBaseIsEmpty => "StringBaseIsEmpty"
  | stringBaseCharCodeAt => "StringBaseCharCodeAt"
  | stringBaseCharAt => "StringBaseCharAt"
  | integerToDouble => "IntegerToDouble"
  | doubleToInteger => "DoubleToInteger"
  | doubleTruncate => "DoubleTruncate"
  | doubleRound => "DoubleRound"
  | doubleFloor => "DoubleFloor"
  | doubleCeil => "DoubleCeil"
  | doubleMod => "DoubleMod"
  | doublePow => "DoublePow"
  | mathSqrt => "MathSqrt"
  | mathSin => "MathSin"
  | mathCos => "MathCos"

def ofName? (s : String) : Option Recognized := all.find? (·.name == s)

end Recognized

structure Field where
  name : String
  /-- The byte offset within an instance. -/
  offset : Nat
  isFinal : Bool
  /-- The only class ever stored, or `dynamic`. -/
  guarded : ClassId
deriving DecidableEq, Inhabited

inductive FunctionKind where
  | regular | getter | setter | constructor
  | implicitGetter (field : Field)
  | implicitSetter (field : Field)
deriving DecidableEq, Inhabited

structure Function where
  name : String
  owner : ClassId
  kind : FunctionKind
  recognized : Recognized := .unknown
  isStatic : Bool := false
deriving DecidableEq, Inhabited

structure Class where
  id : ClassId
  name : String
  superclass : Option ClassId
  fields : List Field := []
  methods : List (String × FunctionId) := []
deriving DecidableEq, Inhabited

namespace Class

def method? (c : Class) (name : String) : Option FunctionId := c.methods.lookup name

def field? (c : Class) (name : String) : Option Field := c.fields.find? (·.name == name)

/-- The methods with `name` standing for `f`, whatever it stood for. -/
def withMethod (c : Class) (name : String) (f : FunctionId) : Class :=
  { c with methods := (name, f) :: c.methods.filter (·.1 != name) }

end Class

structure Hierarchy where
  classes : List Class := []
  functions : Array Function := #[]
  nextClass : Nat := ClassId.firstUser
deriving Inhabited

namespace Hierarchy

def class? (h : Hierarchy) (c : ClassId) : Option Class := h.classes.find? (·.id == c)

/-- Of several classes of one name, the one that was added first. -/
def classByName? (h : Hierarchy) (name : String) : Option ClassId :=
  (h.classes.find? (·.name == name)).map (·.id)

def function (h : Hierarchy) (f : FunctionId) : Except Fault Function :=
  orFault h.functions[f.index]? .missingKey

/-- `class` and its superclasses, nearest first, `n` of them at most. -/
def chainUpTo (h : Hierarchy) : Nat → ClassId → List ClassId
  | 0, _ => []
  | n + 1, c =>
    c :: match (h.class? c).bind (·.superclass) with
      | some s => chainUpTo h n s
      | none => []

/-- A class and all its superclasses, nearest first. A chain without repetition has at most one entry for
each class, and one more for a superclass that is not in the table. -/
def chain (h : Hierarchy) (c : ClassId) : List ClassId := h.chainUpTo (h.classes.length + 1) c

/-- The classes of the chain that are in the table. -/
def ancestry (h : Hierarchy) (c : ClassId) : List Class := (h.chain c).filterMap h.class?

/-- The function a call of `name` goes to for a receiver of class `c`. -/
def resolve (h : Hierarchy) (c : ClassId) (name : String) : Option FunctionId :=
  (h.ancestry c).findSome? (·.method? name)

/-- The static function of a class, not of its superclasses. -/
def static? (h : Hierarchy) (c : ClassId) (name : String) : Except Fault (Option FunctionId) := do
  match (h.class? c).bind (·.method? name) with
  | none => return none
  | some f => return if (← h.function f).isStatic then some f else none

def field? (h : Hierarchy) (c : ClassId) (name : String) : Option Field :=
  (h.ancestry c).findSome? (·.field? name)

def directSubclasses (h : Hierarchy) (c : ClassId) : List Class :=
  h.classes.filter (·.superclass == some c)

def hasSubclasses (h : Hierarchy) (c : ClassId) : Bool := !(h.directSubclasses c).isEmpty

/-- Whether a class below one of the pending classes declares `name`, looking at `n` classes at most. -/
def overrideBelow (h : Hierarchy) (name : String) : Nat → List ClassId → Bool
  | 0, _ => false
  | _, [] => false
  | n + 1, c :: pending =>
    let subs := h.directSubclasses c
    subs.any (fun s => (s.method? name).isSome) || overrideBelow h name n (subs.map (·.id) ++ pending)

/-- Whether a class below `c` declares `name` itself. Every class is below its superclass only, so each is
looked at once. -/
def hasOverride (h : Hierarchy) (c : ClassId) (name : String) : Bool :=
  h.overrideBelow name (h.classes.length + 1) [c]

/-- Instances of `sub` are instances of the type `sup`. Null is an instance of `Object` and `dynamic` only. -/
def isSubtype (h : Hierarchy) (sub sup : ClassId) : Bool :=
  if sup == .dynamic || sup == .object || sub == sup then true
  else if sup == .int then sub.isInteger
  else if sup == .num then sub.isInteger || sub == .double
  else if sup == .string then sub.isString
  else sup ∈ h.chain sub

/-- A value of class `sub` may be assigned to a variable of type `sup`. -/
def isAssignable (h : Hierarchy) (sub sup : ClassId) : Bool := sub == .null || h.isSubtype sub sup

/-! ## Building -/

def modifyClass (h : Hierarchy) (c : ClassId) (f : Class → Class) : Hierarchy :=
  { h with classes := h.classes.map fun k => if k.id = c then f k else k }

def addMethod (h : Hierarchy) (c : ClassId) (name : String) (kind : FunctionKind)
    (recognized : Recognized) (isStatic : Bool) : Except Fault (FunctionId × Hierarchy) :=
  match h.class? c with
  | none => .error .missingClass
  | some _ =>
    let id : FunctionId := ⟨h.functions.size⟩
    let functions := h.functions.push { name, owner := c, kind, recognized, isStatic }
    .ok (id, { h with functions }.modifyClass c (·.withMethod name id))

/-- Adds a user class; without a superclass it extends `Object`. -/
def addClass (h : Hierarchy) (name : String) (superclass : Option ClassId) : ClassId × Hierarchy :=
  let id : ClassId := ⟨h.nextClass⟩
  (id, { h with
    classes := h.classes ++ [{ id, name, superclass := some (superclass.getD .object) }]
    nextClass := h.nextClass + 1 })

/-- The size of an object's header, after which its fields begin. -/
def headerSize : Nat := 8

/-- The number of fields of a class and its superclasses. -/
def fieldCount (h : Hierarchy) (c : ClassId) : Nat :=
  (h.ancestry c).foldl (fun n k => n + k.fields.length) 0

/-- Adds a field behind those the class has, with its getter and, unless it is final, its setter. -/
def addField (h : Hierarchy) (c : ClassId) (name : String) (isFinal : Bool) (guarded : ClassId) :
    Except Fault (Field × Hierarchy) := do
  let field : Field := { name, offset := headerSize + 8 * h.fieldCount c, isFinal, guarded }
  let h := h.modifyClass c fun k => { k with fields := k.fields ++ [field] }
  let (_, h) ← h.addMethod c ("get:" ++ name) (.implicitGetter field) .unknown false
  if isFinal then return (field, h)
  let (_, h) ← h.addMethod c ("set:" ++ name) (.implicitSetter field) .unknown false
  return (field, h)

/-! ## The core library -/

def addCoreClass (h : Hierarchy) (c : ClassId) (superclass : Option ClassId) : Hierarchy :=
  { h with classes := h.classes ++ [{ id := c, name := c.text, superclass }] }

/-- A method of a core class: its name, kind, meaning, and whether it is static. -/
structure CoreMethod where
  owner : ClassId
  name : String
  kind : FunctionKind := .regular
  recognized : Recognized := .unknown
  isStatic : Bool := false

def coreClasses : List ClassId :=
  [.null, .bool, .type, .typeArguments, .math, .smi, .mint, .bigint, .double, .oneByteString,
    .twoByteString, .array, .immutableArray, .growableArray, .int8Array, .uint8Array,
    .uint8ClampedArray, .int16Array, .uint16Array, .int32Array, .uint32Array, .float32Array,
    .float64Array, .externalUint8Array]

def arithmeticNames : List String :=
  ["+", "-", "*", "/", "~/", "%", "<", ">", "<=", ">=", "==", "unary-"]

def bitwiseNames : List String := ["&", "|", "^", "<<", ">>", "~"]

def numberMethods : List CoreMethod :=
  [.smi, .mint, .bigint, .double].flatMap fun c =>
    arithmeticNames.map fun name => { owner := c, name }

def integerMethods : List CoreMethod :=
  [.smi, .mint, .bigint].flatMap fun c =>
    bitwiseNames.map (fun name => { owner := c, name }) ++
      [{ owner := c, name := "toDouble", recognized := .integerToDouble }]

def doubleMethods : List CoreMethod :=
  [("%", .doubleMod), ("pow", .doublePow), ("toInt", .doubleToInteger), ("truncate", .doubleTruncate),
    ("round", .doubleRound), ("floor", .doubleFloor), ("ceil", .doubleCeil)].map
      fun (name, recognized) => { owner := .double, name, recognized }

def stringMethods : List CoreMethod :=
  [.oneByteString, .twoByteString].flatMap fun c =>
    [{ owner := c, name := "get:length", kind := .getter, recognized := .stringBaseLength },
      { owner := c, name := "get:isEmpty", kind := .getter, recognized := .stringBaseIsEmpty },
      { owner := c, name := "charCodeAt", recognized := .stringBaseCharCodeAt },
      { owner := c, name := "[]", recognized := .stringBaseCharAt }]

/-- The methods every class with elements has. -/
def elementMethods (c : ClassId) (length : Recognized) : List CoreMethod :=
  [{ owner := c, name := "get:length", kind := .getter, recognized := length },
    { owner := c, name := "[]" }, { owner := c, name := "[]=" }]

def arrayMethods : List CoreMethod :=
  elementMethods .array .objectArrayLength ++ elementMethods .immutableArray .immutableArrayLength ++
    elementMethods .growableArray .growableArrayLength ++
    [{ owner := .array, name := "new", kind := .constructor, isStatic := true },
      { owner := .growableArray, name := "get:_capacity", kind := .getter,
        recognized := .growableArrayCapacity }]

def typedDataMethods : List CoreMethod :=
  [.int8Array, .uint8Array, .uint8ClampedArray, .int16Array, .uint16Array, .int32Array, .uint32Array,
    .float32Array, .float64Array, .externalUint8Array].flatMap (elementMethods · .byteArrayBaseLength)

def mathMethods : List CoreMethod :=
  [("sqrt", .mathSqrt), ("sin", .mathSin), ("cos", .mathCos)].map
    fun (name, recognized) => { owner := .math, name, recognized, isStatic := true }

/-- The methods of the core library, in the order in which they are numbered. -/
def coreMethods : List CoreMethod :=
  [{ owner := .object, name := "==" }] ++ numberMethods ++ integerMethods ++ doubleMethods ++
    stringMethods ++ arrayMethods ++ typedDataMethods ++ mathMethods

/-- The hierarchy of the core library alone. All core methods belong to core classes. -/
def core : Hierarchy :=
  let h := coreClasses.foldl (fun h c => h.addCoreClass c (some .object))
    (addCoreClass {} .object none)
  coreMethods.foldl (fun h m =>
    match h.addMethod m.owner m.name m.kind m.recognized m.isStatic with
    | .ok (_, h) => h
    | .error _ => h) h

end Hierarchy

end Midend
