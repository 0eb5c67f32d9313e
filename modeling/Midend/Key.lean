/-! # Keys

Blocks, instructions and functions are known by number. A key is only a number with a letter in front
when it is written; whether it names anything is for the table it is looked up in.
-/

namespace Midend

/-- A basic block, written `B<n>`. -/
structure BlockId where
  index : Nat
deriving DecidableEq, Inhabited, Hashable

/-- An instruction, written `i<n>`. -/
structure InstId where
  index : Nat
deriving DecidableEq, Inhabited, Hashable

/-- A function of the class table, written `fn<n>`. -/
structure FunctionId where
  index : Nat
deriving DecidableEq, Inhabited, Hashable

/-- Keys are numbers below this. -/
def keyLimit : Nat := 0x100000000

/-- The block with a number. Of a number that is no key the low bits count. -/
def BlockId.ofNat (n : Nat) : BlockId := ⟨n % keyLimit⟩

/-- The instruction with a number. -/
def InstId.ofNat (n : Nat) : InstId := ⟨n % keyLimit⟩

/-- The function with a number. -/
def FunctionId.ofNat (n : Nat) : FunctionId := ⟨n % keyLimit⟩

/-- The input place of a phi that has not been filled in. No table holds it. -/
def InstId.unset : InstId := ⟨4294967295⟩

def BlockId.text (b : BlockId) : String := s!"B{b.index}"

def InstId.text (i : InstId) : String := s!"i{i.index}"

def FunctionId.text (f : FunctionId) : String := s!"fn{f.index}"

/-- Input `index` of the instruction `user`, or value `index` of its environment. -/
structure Use where
  user : InstId
  index : Nat
deriving DecidableEq, Inhabited, Hashable

def Use.text (u : Use) : String := s!"Use \x7b user: {u.user.text}, index: {u.index} \x7d"

end Midend
