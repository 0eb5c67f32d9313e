import Midend.Table

/-! # The order of instructions

Every block has a list of instructions, and every placed instruction has the block whose list it is on.
Phis and the definitions of the graph entry are kept elsewhere.
-/

namespace Midend

structure Layout where
  lists : SideTable (List InstId) := {}
  homes : SideTable BlockId := {}
deriving Inhabited

namespace Layout

def insts (l : Layout) (b : BlockId) : List InstId := (l.lists.get? b.index).getD []

def isPlaced (l : Layout) (i : InstId) : Bool := l.homes.contains i.index

/-- The block an instruction is placed in. -/
def home (l : Layout) (i : InstId) : Except Fault BlockId := l.homes.get i.index

def setInsts (l : Layout) (b : BlockId) (is : List InstId) : Layout :=
  { l with lists := l.lists.insert b.index is }

/-- Records that `i`, which is not placed, now has a place in `b`. -/
def settle (l : Layout) (i : InstId) (b : BlockId) : Except Fault Layout := do
  return { l with homes := ← l.homes.add i.index b }

def append (l : Layout) (i : InstId) (b : BlockId) : Except Fault Layout := do
  return (← l.settle i b).setInsts b (l.insts b ++ [i])

def prepend (l : Layout) (i : InstId) (b : BlockId) : Except Fault Layout := do
  return (← l.settle i b).setInsts b (i :: l.insts b)

/-- `i` right in front of the anchor `a`. -/
def putBefore (a i : InstId) : List InstId → List InstId
  | [] => []
  | x :: xs => if x = a then i :: x :: xs else x :: putBefore a i xs

/-- `i` right behind the anchor `a`. -/
def putAfter (a i : InstId) : List InstId → List InstId
  | [] => []
  | x :: xs => if x = a then x :: i :: xs else x :: putAfter a i xs

def insertBefore (l : Layout) (i anchor : InstId) : Except Fault Layout := do
  let b ← l.home anchor
  return (← l.settle i b).setInsts b (putBefore anchor i (l.insts b))

def insertAfter (l : Layout) (i anchor : InstId) : Except Fault Layout := do
  let b ← l.home anchor
  return (← l.settle i b).setInsts b (putAfter anchor i (l.insts b))

def remove (l : Layout) (i : InstId) : Except Fault Layout := do
  let b ← orFault (l.homes.get? i.index) .notInLayout
  return { l with homes := l.homes.erase i.index }.setInsts b ((l.insts b).erase i)

/-- Moves all instructions of one block behind those of another. -/
def moveAll (l : Layout) (source target : BlockId) : Layout :=
  if source = target then l
  else
    let moved := l.insts source
    let homes := moved.foldl (fun h i => h.insert i.index target) l.homes
    ({ l with homes }.setInsts target (l.insts target ++ moved)).setInsts source []

def first? (l : Layout) (b : BlockId) : Option InstId := (l.insts b).head?

def last? (l : Layout) (b : BlockId) : Option InstId := (l.insts b).getLast?

/-- The instructions behind `i` in its block. -/
def after (l : Layout) (i : InstId) : Except Fault (List InstId) := do
  return ((l.insts (← l.home i)).dropWhile (· != i)).drop 1

/-- The instructions in front of `i` in its block. -/
def before (l : Layout) (i : InstId) : Except Fault (List InstId) := do
  return (l.insts (← l.home i)).takeWhile (· != i)

def next (l : Layout) (i : InstId) : Except Fault (Option InstId) := do return (← l.after i).head?

def prev (l : Layout) (i : InstId) : Except Fault (Option InstId) := do return (← l.before i).getLast?

end Layout

end Midend
