/-! # Operator tokens -/

namespace Midend

/-- The operator of a call site or of an arithmetic instruction. -/
inductive Token where
  | add | sub | mul | div | truncDiv | mod
  | bitAnd | bitOr | bitXor | shl | shr
  | negate | bitNot | not
  | eq | ne | eqStrict | neStrict
  | lt | gt | lte | gte
  | index | assignIndex | get | set
  | is | isNot
  /-- A plain method call, without an operator. -/
  | illegal
deriving DecidableEq, Inhabited

namespace Token

def all : List Token :=
  [add, sub, mul, div, truncDiv, mod, bitAnd, bitOr, bitXor, shl, shr, negate, bitNot, not,
    eq, ne, eqStrict, neStrict, lt, gt, lte, gte, index, assignIndex, get, set, is, isNot, illegal]

def name : Token → String
  | add => "Add" | sub => "Sub" | mul => "Mul" | div => "Div" | truncDiv => "TruncDiv" | mod => "Mod"
  | bitAnd => "BitAnd" | bitOr => "BitOr" | bitXor => "BitXor" | shl => "Shl" | shr => "Shr"
  | negate => "Negate" | bitNot => "BitNot" | not => "Not"
  | eq => "Eq" | ne => "Ne" | eqStrict => "EqStrict" | neStrict => "NeStrict"
  | lt => "Lt" | gt => "Gt" | lte => "Lte" | gte => "Gte"
  | index => "Index" | assignIndex => "AssignIndex" | get => "Get" | set => "Set"
  | is => "Is" | isNot => "IsNot" | illegal => "Illegal"

def ofName? (s : String) : Option Token := all.find? (·.name == s)

/-- The spelling of the operator in source text. -/
def symbol : Token → String
  | add => "+" | sub => "-" | mul => "*" | div => "/" | truncDiv => "~/" | mod => "%"
  | bitAnd => "&" | bitOr => "|" | bitXor => "^" | shl => "<<" | shr => ">>"
  | negate => "unary-" | bitNot => "~" | not => "!"
  | eq => "==" | ne => "!=" | eqStrict => "===" | neStrict => "!=="
  | lt => "<" | gt => ">" | lte => "<=" | gte => ">="
  | index => "[]" | assignIndex => "[]=" | get => "get" | set => "set"
  | is => "is" | isNot => "is!" | illegal => "call"

def isBinaryArithmetic : Token → Bool
  | add | sub | mul | div | truncDiv | mod | bitAnd | bitOr | bitXor | shl | shr => true
  | _ => false

def isUnary : Token → Bool
  | negate | bitNot => true
  | _ => false

def isRelational : Token → Bool
  | lt | gt | lte | gte => true
  | _ => false

def isEquality : Token → Bool
  | eq | ne | eqStrict | neStrict => true
  | _ => false

def isTypeTest : Token → Bool
  | is | isNot => true
  | _ => false

def isCommutative : Token → Bool
  | add | mul | bitAnd | bitOr | bitXor => true
  | _ => false

/-- The comparison that holds exactly when this one does not. -/
def negated? : Token → Option Token
  | eq => some ne
  | ne => some eq
  | eqStrict => some neStrict
  | neStrict => some eqStrict
  | lt => some gte
  | gt => some lte
  | lte => some gt
  | gte => some lt
  | _ => none

/-- The comparison that holds with its operands exchanged; any other token is its own flip. -/
def flipped : Token → Token
  | lt => gt
  | gt => lt
  | lte => gte
  | gte => lte
  | t => t

end Token

end Midend
