/-! # Shortest decimals

The decimal with the fewest digits that reads back as a given binary number, computed with natural
numbers only. Of two such decimals the nearer one is taken, and of two equally near ones the larger.
-/

namespace Midend.Decimal

/-- The number `mantissa * 2 ^ exponent`. It is `narrow` when the next smaller number is only half as far
away as the next larger one. -/
structure Binary where
  mantissa : Nat
  exponent : Int
  narrow : Bool

/-- The number `digits * 10 ^ exponent`. -/
structure Number where
  digits : Nat
  exponent : Int

/-- A non-negative rational `num / den`. -/
structure Ratio where
  num : Nat
  den : Nat

/-- `n * 2 ^ e`. -/
def Ratio.scaled (n : Nat) (e : Int) : Ratio :=
  if 0 ≤ e then ⟨n <<< e.toNat, 1⟩ else ⟨n, 1 <<< (-e).toNat⟩

/-- `d * 10 ^ e`. -/
def Ratio.decimal (d : Nat) (e : Int) : Ratio :=
  if 0 ≤ e then ⟨d * Nat.pow 10 e.toNat, 1⟩ else ⟨d, Nat.pow 10 (-e).toNat⟩

def Ratio.lt (a b : Ratio) : Bool := a.num * b.den < b.num * a.den

def Ratio.le (a b : Ratio) : Bool := a.num * b.den ≤ b.num * a.den

namespace Binary

def value (b : Binary) : Ratio := .scaled (4 * b.mantissa) (b.exponent - 2)

/-- Halfway to the next smaller number. -/
def lower (b : Binary) : Ratio :=
  .scaled (4 * b.mantissa - (if b.narrow then 1 else 2)) (b.exponent - 2)

/-- Halfway to the next larger number. -/
def upper (b : Binary) : Ratio := .scaled (4 * b.mantissa + 2) (b.exponent - 2)

/-- Whether `r` reads back as `b`; the ends of the interval do so only for an even mantissa. -/
def readsBack (b : Binary) (r : Ratio) : Bool :=
  if b.mantissa % 2 = 0 then b.lower.le r && r.le b.upper else b.lower.lt r && r.lt b.upper

/-- The least `k` with `b < 10 ^ k`, which lies between -330 and 310 for a double. -/
def magnitude (b : Binary) : Int :=
  let k := (List.range 640).find? fun (j : Nat) => b.value.lt (.decimal 1 (Int.subNatNat j 330))
  Int.subNatNat (k.getD 640) 330

/-- The neighbour of `b` among the decimals of `n` digits that reads back, if one does. -/
def atDigits? (b : Binary) (n : Nat) : Option Number :=
  let e := b.magnitude - n
  let unit := Ratio.decimal 1 e
  let v := b.value
  let d := v.num * unit.den / (v.den * unit.num)
  let down := b.readsBack (.decimal d e)
  let up := b.readsBack (.decimal (d + 1) e)
  let nearUp := (2 * d + 1) * unit.num * v.den ≤ 2 * v.num * unit.den
  if up && (nearUp || !down) then some ⟨d + 1, e⟩
  else if down then some ⟨d, e⟩
  else none

/-- Seventeen digits always suffice. -/
def shortest (b : Binary) : Number :=
  ((List.range 17).findSome? fun n => b.atDigits? (n + 1)).getD ⟨0, 0⟩

end Binary

/-- The digits without the zeros at their end, and the position of the decimal point in front of the
first digit. -/
def Number.significant (d : Number) : List Char × Int :=
  let cs := Nat.toDigits 10 d.digits
  ((cs.reverse.dropWhile (· == '0')).reverse, d.exponent + cs.length)

/-- How a decimal is written out: positionally while its leading digit has a weight from
`10 ^ least` up to `10 ^ most`, else with an exponent. -/
structure Style where
  least : Int
  most : Int

/-- The text of `0.digits * 10 ^ point`. -/
def Style.write (s : Style) (digits : List Char) (point : Int) : String :=
  let zeros (n : Int) := List.replicate n.toNat '0'
  let lead := point - 1
  if s.least ≤ lead ∧ lead ≤ s.most then
    if point ≤ 0 then String.ofList ('0' :: '.' :: (zeros (-point) ++ digits))
    else if point < digits.length then
      String.ofList (digits.take point.toNat ++ '.' :: digits.drop point.toNat)
    else String.ofList (digits ++ zeros (point - digits.length) ++ ['.', '0'])
  else
    let rest := digits.drop 1
    String.ofList (digits.take 1 ++ (if rest.isEmpty then [] else '.' :: rest)) ++ s!"e{lead}"

end Midend.Decimal
