/-! # 64-bit integers

Integers of the program are `Int`s that fit a signed 64-bit word. Arithmetic that can leave the word
answers `none`, and the bitwise operators act on the two's complement form. Counts and positions are `Nat`s
that fit an unsigned one.
-/

namespace Midend.Word

def least : Int := -0x8000000000000000

def greatest : Int := 0x7fffffffffffffff

def Fits (v : Int) : Prop := least ≤ v ∧ v ≤ greatest

instance (v : Int) : Decidable (Fits v) := inferInstanceAs (Decidable (_ ∧ _))

/-- Counts are below this. -/
def countLimit : Nat := 0x10000000000000000

def check (v : Int) : Option Int := if Fits v then some v else none

def add? (a b : Int) : Option Int := check (a + b)

def sub? (a b : Int) : Option Int := check (a - b)

def mul? (a b : Int) : Option Int := check (a * b)

/-- Addition that stops at the ends of the word. -/
def addSaturating (a b : Int) : Int := max least (min greatest (a + b))

def bits (v : Int) : BitVec 64 := BitVec.ofInt 64 v

def and (a b : Int) : Int := (bits a &&& bits b).toInt

def or (a b : Int) : Int := (bits a ||| bits b).toInt

def xor (a b : Int) : Int := (bits a ^^^ bits b).toInt

/-- The least small integer. Small integers have one bit less than a word. -/
def smiMin : Int := -0x4000000000000000

/-- The greatest small integer. -/
def smiMax : Int := 0x3fffffffffffffff

def IsSmi (v : Int) : Prop := smiMin ≤ v ∧ v ≤ smiMax

instance (v : Int) : Decidable (IsSmi v) := inferInstanceAs (Decidable (_ ∧ _))

/-- `v` if it is a small integer. -/
def smi? (v : Int) : Option Int := if IsSmi v then some v else none

end Midend.Word
