import Midend.ClassId
import Midend.Double
import Midend.Text.Printable
import Midend.Word

/-! # Constants

The values a method may hold at compile time. An array literal is an object of its own: two of them are
the same constant only if they are the same object, whatever they hold.
-/

namespace Midend

inductive Constant where
  | null
  | bool (value : Bool)
  | smi (value : Int)
  | mint (value : Int)
  | double (value : Double)
  | str (value : String)
  /-- An immutable array literal; `identity` tells one literal from another. -/
  | array (identity : Nat) (elements : List Constant)
  /-- An instantiated type argument vector. -/
  | typeArguments (classes : List ClassId)
  /-- A type, as the operand of a type test. -/
  | type (cls : ClassId)
deriving Inhabited

namespace Constant

/-- The integer constant of a value, wide only if it has to be. -/
def int (v : Int) : Constant := if Word.IsSmi v then smi v else mint v

def classId : Constant → ClassId
  | null => .null
  | bool _ => .bool
  | smi _ => .smi
  | mint _ => .mint
  | double _ => .double
  | str s => if s.toList.all (·.toNat < 0x100) then .oneByteString else .twoByteString
  | array .. => .immutableArray
  | typeArguments _ => .typeArguments
  | type _ => .type

def smi? : Constant → Option Int
  | smi v => some v
  | _ => none

def int? : Constant → Option Int
  | smi v | mint v => some v
  | _ => none

def bool? : Constant → Option Bool
  | bool b => some b
  | _ => none

def isNull : Constant → Bool
  | null => true
  | _ => false

/-- Constants that cost nothing to make again where they are needed. -/
def isCheap : Constant → Bool
  | null | smi _ | typeArguments _ => true
  | _ => false

/-- The same object. -/
def same : Constant → Constant → Bool
  | null, null => true
  | bool a, bool b => a == b
  | smi a, smi b => a == b
  | mint a, mint b => a == b
  | double a, double b => a == b
  | str a, str b => a == b
  | array a _, array b _ => a == b
  | typeArguments a, typeArguments b => a == b
  | type a, type b => a == b
  | _, _ => false

instance : BEq Constant := ⟨same⟩

def classesText (cs : List ClassId) : String :=
  "[" ++ Text.joined ", " (cs.map ClassId.text) ++ "]"

/-- How a constant is shown as an operand. -/
def text : Constant → String
  | null => "null"
  | bool b => if b then "true" else "false"
  | smi v => s!"#{v}"
  | mint v => s!"#{v}L"
  | double d => d.text
  | str s => Text.quoted s
  | array _ es => s!"const[{es.length}]"
  | typeArguments cs => s!"<{classesText cs}>"
  | type c => s!"type {c.text}"

mutual

/-- The full contents of a constant. Arrays show what they hold and not which object they are, and all
NaNs read the same. -/
def contents : Constant → String
  | null => "Null"
  | bool b => if b then "Bool(true)" else "Bool(false)"
  | smi v => s!"Smi({v})"
  | mint v => s!"Mint({v})"
  | double d => s!"Double({d.text})"
  | str s => s!"Str({Text.quoted s})"
  | array _ es => "Array([" ++ Text.joined ", " (contentsList es) ++ "])"
  | typeArguments cs => s!"TypeArguments({classesText cs})"
  | type c => s!"Type({c.text})"

def contentsList : List Constant → List String
  | [] => []
  | c :: cs => contents c :: contentsList cs

end

end Constant

end Midend
