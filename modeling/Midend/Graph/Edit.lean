import Midend.Graph.Basic

/-! # Changing flow graphs

Every change of a graph is an `Edit`: it returns a value and a new graph, or stops with a fault. Edits that
place, remove or retarget instructions keep the use lists in step with inputs and environments.
-/

namespace Midend

abbrev Edit := StateT FlowGraph (Except Fault)

/-- Runs `f` on every item and tells whether any of the runs changed something. -/
def anyChange {α : Type} (items : List α) (f : α → Edit Bool) : Edit Bool :=
  items.foldlM (fun changed a => return (← f a) || changed) false

namespace Edit

/-- Changes the entry of an instruction. -/
def modifyNode (i : InstId) (f : Node → Node) : Edit Unit := do
  let g ← get
  if i.index < g.nodes.size then set { g with nodes := g.nodes.modify i.index f }
  else throw .missingKey

/-- Changes the entry of an instruction, if there is one. -/
def modifyNode? (i : InstId) (f : Node → Node) : Edit Unit :=
  modify fun g => { g with nodes := g.nodes.modify i.index f }

def modifyBlock (b : BlockId) (f : Block → Block) : Edit Unit := do
  let g ← get
  if b.index < g.blocks.size then set { g with blocks := g.blocks.modify b.index f }
  else throw .missingKey

def setInst (i : InstId) (d : Inst) : Edit Unit := modifyNode i fun n => { n with inst := d }

def setRange (i : InstId) (r : Option Range) : Edit Unit := modifyNode i fun n => { n with range := r }

/-- Applies a change of the layout. -/
def onLayout (f : Layout → Except Fault Layout) : Edit Unit := do
  let l ← f (← get).layout
  modify fun g => { g with layout := l }

/-! ## New blocks and instructions -/

def addBlock (kind : BlockKind) : Edit BlockId := fun g =>
  .ok (⟨g.blocks.size⟩, { g with blocks := g.blocks.push { kind } })

/-- A new entry reached from the graph entry when an exception is caught. -/
def addCatchEntry : Edit BlockId := do
  let b ← addBlock .target
  modify fun g => { g with catchEntries := g.catchEntries ++ [b] }
  return b

/-- A new instruction that is in no block yet. -/
def addInst (d : Inst) : Edit InstId := fun g =>
  .ok (⟨g.nodes.size⟩, { g with nodes := g.nodes.push { inst := d } })

def allocSsaIndex (d : InstId) : Edit Nat := do
  let n := (← get).nextSsaIndex
  modify fun g => { g with nextSsaIndex := n + 1 }
  modifyNode d fun node => { node with ssaIndex := some n }
  return n

def allocDeoptId : Edit Nat := do
  let n := (← get).nextDeoptId
  modify fun g => { g with nextDeoptId := n + 1 }
  return n

/-- Gives `new` an index of its own if `old` has one and `new` has none but produces a value. -/
def ensureSsaIndex (new old : InstId) : Edit Unit := do
  let g ← get
  let n ← g.node new
  if n.ssaIndex.isNone then
    if (← g.node old).ssaIndex.isSome && n.inst.isDefinition then
      discard <| allocSsaIndex new

/-- A new constant or parameter of the graph entry. -/
def addInitialDefinition (d : Inst) : Edit InstId := do
  let i ← addInst d
  modifyNode i fun n => { n with block := some FlowGraph.graphEntry }
  modify fun g => { g with initialDefinitions := g.initialDefinitions ++ [i] }
  return i

/-- The initial definition of a constant, a new one if there is none yet. -/
def getConstant (c : Constant) : Edit InstId := do
  let g ← get
  match ← g.initialDefinitions.findM? fun i => return (← g.constantOf i) == some c with
  | some i => return i
  | none =>
    let i ← addInitialDefinition (.constant c)
    discard <| allocSsaIndex i
    return i

/-! ## Use lists -/

def addInputUse (d : InstId) (u : Use) : Edit Unit :=
  modifyNode? d fun n => { n with inputUses := n.inputUses ++ [u] }

def dropInputUse (d : InstId) (u : Use) : Edit Unit :=
  modifyNode? d fun n => { n with inputUses := n.inputUses.filter (· != u) }

def addEnvUse (d : InstId) (u : Use) : Edit Unit :=
  modifyNode? d fun n => { n with envUses := n.envUses ++ [u] }

def dropEnvUse (d : InstId) (u : Use) : Edit Unit :=
  modifyNode? d fun n => { n with envUses := n.envUses.filter (· != u) }

/-- Each definition of the list with the use it has by its position. -/
def usesBy (user : InstId) (ds : List InstId) : List (InstId × Use) :=
  ds.zipIdx.map fun (d, k) => (d, ⟨user, k⟩)

def addInputUses (i : InstId) : Edit Unit := do
  (usesBy i (← (← get).args i)).forM fun (d, u) => addInputUse d u

def dropInputUses (i : InstId) : Edit Unit := do
  (usesBy i (← (← get).args i)).forM fun (d, u) => dropInputUse d u

/-- The values of the environment of an instruction. -/
def envValues (i : InstId) : Edit (List InstId) := do
  match ← (← get).env i with
  | some e => return e.values
  | none => return []

def addEnvUses (i : InstId) : Edit Unit := do
  (usesBy i (← envValues i)).forM fun (d, u) => addEnvUse d u

def dropEnvUses (i : InstId) : Edit Unit := do
  (usesBy i (← envValues i)).forM fun (d, u) => dropEnvUse d u

/-- Builds all use lists anew from the discovered blocks, in preorder. -/
def computeUseLists : Edit Unit := do
  modify fun g => { g with
    nodes := g.nodes.map fun n => { n with inputUses := [], envUses := [] } }
  (← get).preorder.forM fun b => do
    (← (← get).livePhis b).forM addInputUses
    ((← get).insts b).forM fun i => do
      addInputUses i
      addEnvUses i

/-! ## Placing and removing -/

def setBlock (i : InstId) (b : Option BlockId) : Edit Unit := modifyNode i fun n => { n with block := b }

/-- Puts an instruction at the end of a block and leaves the use lists alone. -/
def link (b : BlockId) (i : InstId) : Edit Unit := do
  onLayout (·.append i b)
  setBlock i (some b)

/-- Puts an instruction behind another one and leaves the use lists alone. -/
def linkAfter (anchor i : InstId) : Edit Unit := do
  onLayout (·.insertAfter i anchor)
  setBlock i (← (← get).node anchor).block

/-- The uses an instruction has once it is placed. -/
def addUses (i : InstId) : Edit Unit := do
  addInputUses i
  addEnvUses i

def append (b : BlockId) (i : InstId) : Edit Unit := do
  link b i
  addUses i

def prepend (b : BlockId) (i : InstId) : Edit Unit := do
  onLayout (·.prepend i b)
  setBlock i (some b)
  addUses i

def insertBefore (anchor i : InstId) : Edit Unit := do
  onLayout (·.insertBefore i anchor)
  setBlock i (← (← get).node anchor).block
  addUses i

def insertAfter (anchor i : InstId) : Edit Unit := do
  linkAfter anchor i
  addUses i

/-- Takes an instruction out of its block. Nothing may use it any more. -/
def remove (i : InstId) : Edit Unit := do
  let g ← get
  if ← g.hasUses i then throw (.stillUsed i (← g.inputUses i))
  dropInputUses i
  dropEnvUses i
  onLayout (·.remove i)
  setBlock i none

/-- Moves an instruction in front of another one. Its uses stay. -/
def moveBefore (i anchor : InstId) : Edit Unit := do
  onLayout (·.remove i)
  onLayout (·.insertBefore i anchor)
  setBlock i (← (← get).node anchor).block

/-- Moves the instructions of one block to the end of another. -/
def moveAll (source target : BlockId) : Edit Unit := do
  let moved := (← get).insts source
  onLayout fun l => .ok (l.moveAll source target)
  moved.forM fun i => setBlock i (some target)

/-! ## Inputs -/

/-- Forgets the class that was known to reach a use. -/
def forgetReaching (u : Use) : Edit Unit :=
  modify fun g => { g with reaching := g.reaching.filter (·.1 != u) }

def setReaching (u : Use) (c : ClassId) : Edit Unit :=
  modify fun g => { g with reaching := (u, c) :: g.reaching.filter (·.1 != u) }

/-- Input `k` of `user` becomes `d`, while the use lists stay as they are. -/
def setArgQuietly (user : InstId) (k : Nat) (d : InstId) : Edit Unit := do
  let i ← (← get).inst user
  if k < i.args.length then setInst user (i.setArg k d) else throw .outOfRange

/-- Input `k` of `user` becomes `d`. -/
def setArg (user : InstId) (k : Nat) (d : InstId) : Edit Unit := do
  let u : Use := ⟨user, k⟩
  dropInputUse (← (← get).arg user k) u
  setArgQuietly user k d
  forgetReaching u
  addInputUse d u

/-- Successor `k` of a terminator becomes `b`. -/
def retarget (i : InstId) (k : Nat) (b : BlockId) : Edit Unit := do
  setInst i (← orFault ((← (← get).inst i).setSuccessor? k b) .outOfRange)

/-- Value `k` of the environment of `user` becomes `d`. -/
def setEnvValue (user : InstId) (k : Nat) (d : InstId) : Edit Unit := do
  match ← (← get).env user with
  | none => pure ()
  | some e =>
    let e ← e.setValueAt k d
    modifyNode user fun n => { n with env := some e }

/-- Everything that used `old` now uses `new`. -/
def replaceUses (old new : InstId) : Edit Unit := do
  if old = new then return
  let inputUses ← (← get).inputUses old
  modifyNode old fun n => { n with inputUses := [] }
  inputUses.forM fun u => do
    setArgQuietly u.user u.index new
    forgetReaching u
  modifyNode new fun n => { n with inputUses := n.inputUses ++ inputUses }
  let envUses ← (← get).envUses old
  modifyNode old fun n => { n with envUses := [] }
  envUses.forM fun u => setEnvValue u.user u.index new
  modifyNode new fun n => { n with envUses := n.envUses ++ envUses }

/-- Takes a definition out and lets an existing one stand in for it. -/
def replaceByExisting (old existing : InstId) : Edit Unit := do
  replaceUses old existing
  remove old

/-! ## Environments -/

def setEnv (i : InstId) (e : Option Environment) : Edit Unit := do
  dropEnvUses i
  modifyNode i fun n => { n with env := e }
  if (← (← get).node i).block.isSome then addEnvUses i

/-- `target` resumes where `source` does. -/
def copyDeoptTarget (target source : InstId) : Edit Unit := do
  let s ← (← get).node source
  modifyNode target fun n => { n with deoptId := s.deoptId }
  setEnv target s.env

/-- Puts the unplaced instruction `new` in the place of `old`, with its uses and its resume point. -/
def replaceInst (old new : InstId) : Edit Unit := do
  copyDeoptTarget new old
  insertBefore old new
  ensureSsaIndex new old
  replaceUses old new
  remove old

/-! ## Phis -/

/-- A phi has fewer inputs than this: they take four bytes each, and a list takes less than half of what a
word can address. -/
def inputLimit : Nat := 0x2000000000000000

/-- A dead phi without inputs in a block. -/
def addPhi (b : BlockId) (slot : Option Nat) (inputs : Nat) : Edit InstId := do
  if inputLimit ≤ inputs then throw .overflow
  let i ← addInst (.phi slot (List.replicate inputs .unset) false .tagged)
  setBlock i (some b)
  modifyBlock b fun k => { k with phis := k.phis ++ [i] }
  return i

def revivePhi (i : InstId) : Edit Unit := modifyNode i fun n => { n with inst := n.inst.revive }

/-- Brings a phi to life and registers its inputs. -/
def insertPhi (i : InstId) : Edit Unit := do
  revivePhi i
  addInputUses i

def removePhi (i : InstId) : Edit Unit := do
  match (← (← get).node i).block with
  | some b => modifyBlock b fun k => { k with phis := k.phis.filter (· != i) }
  | none => pure ()
  dropInputUses i
  dropEnvUses i
  setBlock i none

/-! ## Classes -/

/-- Records the class of a definition and tells whether it is a new one. -/
def setClass (d : InstId) (c : ClassId) : Edit Bool := do
  let old ← (← get).classOf d
  modifyNode d fun n => { n with cls := some c }
  return old != c

end Edit

end Midend
