import Midend.Builder
import Midend.Hierarchy

/-! # Sample methods

The methods that the command line optimizes, over the core library and two classes of their own.
-/

namespace Midend.Bench

/-- A point with two final double fields and a pair with two mutable fields. -/
def sampleClasses : Except Fault Hierarchy := do
  let (point, h) := Hierarchy.core.addClass "Point" none
  let (_, h) ← h.addField point "x" true .double
  let (_, h) ← h.addField point "y" true .double
  let (pair, h) := h.addClass "Pair" none
  let (_, h) ← h.addField pair "first" false .dynamic
  let (_, h) ← h.addField pair "second" false .dynamic
  return h

/-- The samples are built with classes and methods that have to be there. -/
abbrev Sample := Except String

/-- Feedback of one call with arguments of the given classes. -/
def feedback (h : Hierarchy) (selector : String) (receiver : ClassId) (others : List ClassId) :
    Sample InlineCache :=
  match h.resolve receiver selector with
  | some target =>
    let classes := receiver :: others
    .ok { selector, tested := classes.length, checks := [⟨classes, target, 1⟩] }
  | none => .error s!"no method `{selector}` on {receiver.text}"

def classNamed (h : Hierarchy) (name : String) : Sample ClassId :=
  match h.classByName? name with
  | some c => .ok c
  | none => .error s!"no class `{name}`"

def fieldOffset (h : Hierarchy) (cls : ClassId) (name : String) : Sample Nat :=
  match h.field? cls name with
  | some f => .ok f.offset
  | none => .error s!"no field `{name}`"

/-- A method to be built. -/
structure Method where
  name : String
  parameters : Nat
  locals : Nat
  body : Build Unit

/-- `s = 0; for (i = 0; i < a.length; i++) s += a[i]; return s;` -/
def sumList (h : Hierarchy) : Sample Method := do
  let lengths ← feedback h "get:length" .array []
  let compares ← feedback h "<" .smi [.smi]
  let elements ← feedback h "[]" .array [.smi]
  let sums ← feedback h "+" .smi [.smi]
  return { name := "sum_list", parameters := 1, locals := 2, body := do
    let header ← Build.joinBlock
    let body ← Build.targetBlock
    let exit ← Build.targetBlock
    discard <| Build.storeLocal 1 (← Build.smi 0)
    discard <| Build.storeLocal 2 (← Build.smi 0)
    discard <| Build.goto header
    Build.appendTo header
    let i ← Build.loadLocal 2
    let a ← Build.loadLocal 0
    let length ← Build.getterCall "length" a (some lengths)
    discard <| Build.branch (.relational .lt i length (some compares)) body exit
    Build.appendTo body
    let s ← Build.loadLocal 1
    let a ← Build.loadLocal 0
    let i ← Build.loadLocal 2
    let element ← Build.instanceCall "[]" .index [a, i] 2 (some elements)
    let sum ← Build.binaryCall .add s element (some sums)
    discard <| Build.storeLocal 1 sum
    let i ← Build.loadLocal 2
    let one ← Build.smi 1
    let next ← Build.binaryCall .add i one (some sums)
    discard <| Build.storeLocal 2 next
    discard <| Build.goto header
    Build.appendTo exit
    discard <| Build.returnValue (← Build.loadLocal 1) }

/-- The square of a field of the first parameter. -/
def fieldSquare (field : String) (reads products : InlineCache) : Build InstId := do
  let left ← Build.getterCall field (← Build.loadLocal 0) (some reads)
  let right ← Build.getterCall field (← Build.loadLocal 0) (some reads)
  Build.binaryCall .mul left right (some products)

/-- `return p.x * p.x + p.y * p.y;` -/
def squaredNorm (h : Hierarchy) : Sample Method := do
  let point ← classNamed h "Point"
  let xs ← feedback h "get:x" point []
  let ys ← feedback h "get:y" point []
  let products ← feedback h "*" .double [.double]
  let sums ← feedback h "+" .double [.double]
  return { name := "squared_norm", parameters := 1, locals := 0, body := do
    let x ← fieldSquare "x" xs products
    let y ← fieldSquare "y" ys products
    discard <| Build.returnValue (← Build.binaryCall .add x y (some sums)) }

/-- One way of a choice: the third local becomes `k op 1`. -/
def storeStep (b join : BlockId) (op : Token) (seen : InlineCache) : Build Unit := do
  Build.appendTo b
  let k ← Build.loadLocal 0
  let one ← Build.smi 1
  discard <| Build.storeLocal 2 (← Build.binaryCall op k one (some seen))
  discard <| Build.goto join

/-- `x = 3; if (x === 3) r = k + 1; else r = k - 1; return r;` -/
def selectConstant (h : Hierarchy) : Sample Method := do
  let sums ← feedback h "+" .smi [.smi]
  let differences ← feedback h "-" .smi [.smi]
  return { name := "select_constant", parameters := 1, locals := 2, body := do
    let onTrue ← Build.targetBlock
    let onFalse ← Build.targetBlock
    let join ← Build.joinBlock
    discard <| Build.storeLocal 1 (← Build.smi 3)
    let x ← Build.loadLocal 1
    let three ← Build.smi 3
    discard <| Build.branch (.strict .eqStrict x three) onTrue onFalse
    storeStep onTrue join .add sums
    storeStep onFalse join .sub differences
    Build.appendTo join
    discard <| Build.returnValue (← Build.loadLocal 2) }

/-- `o.first = v; o.second = 1; return o.first;` -/
def forwardStore (h : Hierarchy) : Sample Method := do
  let pair ← classNamed h "Pair"
  let first ← fieldOffset h pair "first"
  let second ← fieldOffset h pair "second"
  return { name := "forward_store", parameters := 2, locals := 0, body := do
    let o ← Build.loadLocal 0
    let v ← Build.loadLocal 1
    discard <| Build.storeField o first v
    let o ← Build.loadLocal 0
    let one ← Build.smi 1
    discard <| Build.storeField o second one
    let o ← Build.loadLocal 0
    discard <| Build.returnValue (← Build.loadField o first false) }

def samples (h : Hierarchy) : Sample (List Method) :=
  [sumList, squaredNorm, selectConstant, forwardStore].mapM fun sample => sample h

/-- The unoptimized graph of a method. -/
def Method.build (m : Method) (name : String) : Except Fault FlowGraph := do
  let g := FlowGraph.new name m.parameters m.locals
  return (← StateT.run (Build.run m.body) g).2

end Midend.Bench
