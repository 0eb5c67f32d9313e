import Midend.Decimal.Shortest

/-! # Doubles

A double is its 64 bits: doubles are told apart by their bits, so that `0.0` and `-0.0` differ and a NaN
equals itself. Nothing here computes with floating point.
-/

namespace Midend

structure Double where
  bits : UInt64
deriving DecidableEq, Inhabited

namespace Double

def negative (d : Double) : Bool := d.bits >>> 63 == 1

/-- The eleven exponent bits. -/
def biased (d : Double) : Nat := ((d.bits >>> 52) &&& 0x7ff).toNat

/-- The 52 fraction bits. -/
def fraction (d : Double) : Nat := (d.bits &&& 0xfffffffffffff).toNat

def isNaN (d : Double) : Bool := d.biased == 0x7ff && d.fraction != 0

def isInfinite (d : Double) : Bool := d.biased == 0x7ff && d.fraction == 0

/-- The leading bit of a normal significand, which is not stored. -/
def hiddenBit : Nat := 0x10000000000000

/-- The magnitude of a finite double as `mantissa * 2 ^ exponent`. -/
def magnitude (d : Double) : Decimal.Binary :=
  if d.biased = 0 then ⟨d.fraction, -1074, false⟩
  else ⟨hiddenBit + d.fraction, (d.biased : Int) - 1075, d.fraction == 0 && d.biased != 1⟩

/-- The integer that a finite double stands for, if it has no fraction. -/
def whole? (d : Double) : Option Int :=
  if d.biased = 0x7ff then none
  else
    let m := d.magnitude
    let sign : Int := if d.negative then -1 else 1
    if 0 ≤ m.exponent then some (sign * (m.mantissa <<< m.exponent.toNat : Nat))
    else
      let unit := 1 <<< (-m.exponent).toNat
      if m.mantissa % unit = 0 then some (sign * (m.mantissa / unit : Nat)) else none

/-- The significand of the double nearest to `n * 2 ^ e`, cut to 53 bits with a half going to the even
neighbour, and the exponent it is scaled by. -/
def roundSignificand (n : Nat) : Nat × Nat :=
  let extra := n.log2 + 1 - 53
  let unit := 1 <<< extra
  let q := n / unit
  let r := n % unit
  let q := if 2 * r > unit || (2 * r = unit && q % 2 = 1) then q + 1 else q
  (q, extra)

/-- The double nearest to an integer of at most 64 bits. -/
def ofInt (v : Int) : Double :=
  if v = 0 then ⟨0⟩
  else
    let sign : Nat := if v < 0 then 0x8000000000000000 else 0
    let (q, extra) := roundSignificand v.natAbs
    let shift := 52 - q.log2
    let mantissa := (q <<< shift) >>> (q.log2 - 52)
    let biased := q.log2 + extra + 1023
    ⟨UInt64.ofNat (sign + biased * hiddenBit + (mantissa - hiddenBit))⟩

/-- Doubles are written positionally from `0.0001` to below `1e16`. -/
def style : Decimal.Style := ⟨-4, 15⟩

def text (d : Double) : String :=
  if d.isNaN then "NaN"
  else
    let sign := if d.negative then "-" else ""
    if d.isInfinite then sign ++ "inf"
    else if d.magnitude.mantissa = 0 then sign ++ "0.0"
    else
      let (digits, point) := d.magnitude.shortest.significant
      sign ++ style.write digits point

end Double

end Midend
