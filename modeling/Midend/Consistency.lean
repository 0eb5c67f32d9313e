import Midend.Graph.Text

/-! # Consistency of graphs

What a graph in SSA form must satisfy: blocks end in their only terminator, predecessor lists agree with
the edges, use lists agree with inputs and environments, and definitions come before their uses. The check
lists everything that is wrong.
-/

namespace Midend.FlowGraph

variable (g : FlowGraph)

/-- An initial definition, a live phi or an instruction placed in a block. -/
def isPresent (d : InstId) : Except Fault Bool := do
  if g.nodes.size ≤ d.index then return false
  let n ← g.node d
  if n.block.isNone then return false
  if n.inst.opcode = .phi then return n.inst.isAlivePhi
  return g.isPlaced d || d ∈ g.initialDefinitions

def finding (subject message : String) : Finding :=
  { graph := s!"graph {g.name}", subject, message }

/-- Input `d` of `user` at position `k` is evaluated before it is read. A phi reads its inputs at the end
of the matching predecessors. -/
def inputArrives (user : InstId) (k : Nat) (d : InstId) : Except Fault Bool := do
  if (← g.opcode user) ≠ .phi then g.instDominates d user
  else
    let pred ← match ← g.instBlock user with
      | some b => pure (← g.preds b)[k]?
      | none => pure none
    match pred.bind g.lastInst with
    | some last => g.instDominates d last
    | none => return false

def inputFindings (user : InstId) (k : Nat) (d : InstId) : Except Fault (List Finding) := do
  if !(← g.isPresent d) then
    return [g.finding (← g.instText user) s!"input {k} refers to {d.text} which is not in the graph"]
  let unlisted ← if ⟨user, k⟩ ∈ (← g.inputUses d) then pure []
    else pure [g.finding (← g.instText user) s!"input {k} is missing from the uses of {d.text}"]
  let late ← if ← g.inputArrives user k d then pure []
    else pure [g.finding (← g.instText d)
      ("does not dominate use in `" ++ (← g.instText user) ++ "`")]
  return unlisted ++ late

/-- The inputs are present, listed among the uses of their definitions, and arrive in time. -/
def checkInputs (user : InstId) : Except Fault (List Finding) := do
  return (← (← g.args user).zipIdx.mapM fun (d, k) => g.inputFindings user k d).flatten

/-- The values of the environment are present and listed among the uses of their definitions. -/
def checkEnv (user : InstId) : Except Fault (List Finding) := do
  match ← g.env user with
  | none => return []
  | some e =>
    let found ← e.values.zipIdx.mapM fun (d, k) => do
      if !(← g.isPresent d) then
        return [g.finding (← g.instText user)
          s!"environment refers to {d.text} which is not in the graph"]
      if ⟨user, k⟩ ∈ (← g.envUses d) then return []
      return [g.finding (← g.instText user)
        s!"environment slot {k} is missing from the uses of {d.text}"]
    return found.flatten

def useFindings (d : InstId) (u : Use) : Except Fault (List Finding) := do
  let user := u.user
  if (← g.opcode user) == .phi && !(← g.isAlivePhi user) then return []
  if !(← g.isPresent user) then
    return [g.finding (← g.instText d) s!"used by {user.text} which is not in the graph"]
  if (← g.args user)[u.index]? = some d then return []
  return [g.finding (← g.instText d) (s!"stale use as input {u.index} of `" ++ (← g.instText user) ++ "`")]

/-- The listed uses of a definition are inputs that refer to it. -/
def checkUses (d : InstId) : Except Fault (List Finding) := do
  return (← (← g.inputUses d).mapM (g.useFindings d)).flatten

/-- Every successor knows the block as a predecessor. -/
def checkEdges (b : BlockId) : Except Fault (List Finding) := do
  let found ← (← g.succs b).mapM fun s => do
    if (← g.predIndex s b).isSome then return []
    return [g.finding b.text s!"{b.text} is missing from the predecessors of {s.text}"]
  return found.flatten

def checkPhi (b : BlockId) (phi : InstId) : Except Fault (List Finding) := do
  let inputs := (← g.args phi).length
  let preds := (← g.preds b).length
  let count ← if inputs = preds then pure []
    else pure [g.finding (← g.instText phi)
      s!"phi has {inputs} inputs but {b.text} has {preds} predecessors"]
  return count ++ (← g.checkInputs phi) ++ (← g.checkUses phi)

def checkInst (b : BlockId) (last i : InstId) : Except Fault (List Finding) := do
  let isTerminator := (← g.inst i).isTerminator
  let early ← if isTerminator && i != last then
      pure [g.finding (← g.instText i) s!"terminator must be at the end of block {b.text}"]
    else pure []
  let missing ← if !isTerminator && i == last then
      pure [g.finding b.text ("last instruction `" ++ (← g.instText i) ++ "` must be a terminator")]
    else pure []
  let stray ← if (← g.instBlock i) = some b then pure []
    else pure [g.finding (← g.instText i) s!"not recorded as part of {b.text}"]
  return early ++ missing ++ stray ++ (← g.checkInputs i) ++ (← g.checkEnv i) ++ (← g.checkUses i)

def checkBlock (b : BlockId) : Except Fault (List Finding) := do
  let edges ← g.checkEdges b
  let phis ← (← g.livePhis b).mapM (g.checkPhi b)
  let found := edges ++ phis.flatten
  if b = graphEntry then return found
  match g.lastInst b with
  | none => return found ++ [g.finding b.text "block is empty"]
  | some last => return found ++ (← (g.insts b).mapM (g.checkInst b last)).flatten

/-- Everything that is wrong with the graph, block by block in reverse postorder. -/
def check : Except Fault (List Finding) := do
  let blocks ← g.reversePostorder.mapM g.checkBlock
  let initial ← g.initialDefinitions.mapM g.checkUses
  return blocks.flatten ++ initial.flatten

/-- Nothing is wrong with the graph. -/
def Consistent : Prop := g.check = .ok []

end Midend.FlowGraph
