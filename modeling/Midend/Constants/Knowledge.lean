import Midend.Constant
import Midend.Inst.Basic

/-! # What is known of a value

A value is not known yet, known to be one constant, or known to vary. Operations on known values are folded
where the exact result fits a word.
-/

namespace Midend

inductive Knowledge where
  | unknown
  | known (c : Constant)
  | varying
deriving Inhabited

namespace Knowledge

def same : Knowledge → Knowledge → Bool
  | unknown, unknown => true
  | known a, known b => a == b
  | varying, varying => true
  | _, _ => false

instance : BEq Knowledge := ⟨same⟩

def bool (b : Bool) : Knowledge := known (.bool b)

/-- What is known of a value that may be either of two. -/
def join : Knowledge → Knowledge → Knowledge
  | unknown, v => v
  | v, unknown => v
  | known a, known b => if a == b then known a else varying
  | _, _ => varying

end Knowledge

/-! ## Folding -/

/-- The result of a small integer operation, unless it throws or does not fit a word. Division goes toward
zero, and the remainder is not negative. -/
def foldSmiOp (op : Token) (l r : Int) : Option Int :=
  match op with
  | .add => Word.add? l r
  | .sub => Word.sub? l r
  | .mul => Word.mul? l r
  | .truncDiv => if r = 0 then none else Word.check (l.tdiv r)
  | .mod => if r = 0 then none else (Word.check (l.tdiv r)).map fun _ => l % r
  | .shl => if 0 ≤ r ∧ r < 64 then Word.check (l <<< r.toNat) else none
  | .shr => if 0 ≤ r then some (l >>> (min r 63).toNat) else none
  | .bitAnd => some (Word.and l r)
  | .bitOr => some (Word.or l r)
  | .bitXor => some (Word.xor l r)
  | _ => none

/-- The outcome of a comparison of integers. -/
def compareInts (op : Token) (l r : Int) : Option Bool :=
  match op with
  | .eq => some (l == r)
  | .ne => some (l != r)
  | .lt => some (l < r)
  | .gt => some (l > r)
  | .lte => some (l ≤ r)
  | .gte => some (l ≥ r)
  | _ => none

namespace Knowledge

/-- A small integer operation; `none` says that nothing new is known. -/
def smiOp (op : Token) : Knowledge → Knowledge → Option Knowledge
  | varying, _ | _, varying => some varying
  | known l, known r =>
    match l.smi?, r.smi? with
    | some a, some b => some ((foldSmiOp op a b).elim varying fun v => known (.int v))
    | _, _ => some varying
  | _, _ => none

/-- The negation of a boolean; `none` says that nothing new is known. -/
def negate : Knowledge → Option Knowledge
  | known (.bool b) => some (bool !b)
  | unknown => none
  | _ => some varying

/-- An equality or an ordering, which only integers decide. -/
def compareOrdered (op : Token) : Knowledge → Knowledge → Knowledge
  | known l, known r =>
    match l.int?, r.int? with
    | some a, some b => (compareInts op a b).elim varying bool
    | _, _ => varying
  | unknown, _ | _, unknown => unknown
  | _, _ => varying

end Knowledge

end Midend
