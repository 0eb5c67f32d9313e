import Midend.Graph.Basic

/-! # The text of a graph

Graphs are written block by block in reverse postorder. A definition with an SSA index is called `v<n>`,
everything else goes by its key.
-/

namespace Midend.FlowGraph

variable (g : FlowGraph)

/-- The name a definition is shown under. -/
def valueName (i : InstId) : Except Fault String := do
  match ← g.ssaIndex i with
  | some n => return s!"v{n}"
  | none => return i.text

def valueNames (is : List InstId) : Except Fault (List String) := is.mapM g.valueName

/-- What stands right behind the opcode. -/
def attributeText : Inst → Except Fault String
  | .constant c => .ok s!"({c.text})"
  | .parameter k => .ok s!"({k})"
  | .loadLocal s | .storeLocal s _ => .ok s!":{s}"
  | .instanceCall c => .ok s!":{c.selector}"
  | .polymorphicCall c ic _ => .ok s!":{c.selector} {ic.text}"
  | .staticCall f _ _ => .ok s!":{f.text}"
  | .allocateObject c _ => .ok s!":{c.text}"
  | .binaryOp _ op _ _ _ | .unaryOp _ op _ => .ok s!":{op.symbol}"
  | .checkClass ic _ => .ok s!" {ic.text}"
  | .checkArrayBound c _ _ | .loadIndexed c _ _ | .storeIndexed c _ _ _ _ => .ok s!":{c.text}"
  | .loadField o _ _ _ _ | .storeField o _ _ _ => .ok s!":{o}"
  | .compare c => .ok s!":{c.op.symbol}:{c.operands.text}"
  | .instanceOf t negate _ => .ok ((if negate then ":!" else ":") ++ t.text)
  | .assertAssignable t _ => .ok s!":{t.text}"
  | .invokeMath f _ => .ok s!":{f.name}"
  | .constraint r _ => do return " " ++ (← r.text)
  | _ => .ok ""

/-- Where a goto or a branch goes. -/
def jumpText : Inst → String
  | .goto t => s!" {t.text}"
  | .branch c t e =>
    s!" if {c.op.symbol} {c.opcode.name}:{c.operands.text} then {t.text} else {e.text}"
  | _ => ""

def instText (i : InstId) : Except Fault String := do
  let n ← g.node i
  let d := n.inst
  let lead ← if d.isDefinition && n.ssaIndex.isSome then pure ((← g.valueName i) ++ " <- ")
    else pure ""
  let detail ← attributeText d
  let operands := d.args ++ d.arguments
  let inputs ← if operands.isEmpty then pure ""
    else pure ("(" ++ ", ".intercalate (← g.valueNames operands) ++ ")")
  let range ← match n.range with
    | some r => pure (" " ++ (← r.text))
    | none => pure ""
  let representation :=
    if d.isDefinition && d.representation != .tagged then " " ++ d.representation.text else ""
  let env ← match n.env with
    | some e => pure (" " ++ Environment.write (← g.valueNames e.values))
    | none => pure ""
  return lead ++ d.opcode.name ++ detail ++ inputs ++ jumpText d ++ range ++ representation ++ env

def instLine (i : InstId) : Except Fault String := do return "  " ++ (← g.instText i) ++ "\n"

/-- The first line of a block: its kind, predecessors, dominator, and whether it heads a loop. -/
def blockLine (b : BlockId) (k : Block) : String :=
  let kind := match k.kind with
    | .graphEntry => "graph"
    | .target => "target"
    | .join => "join"
  let preds := if k.preds.isEmpty then "" else
    " pred(" ++ ", ".intercalate (k.preds.map BlockId.text) ++ ")"
  let idom := match k.dominator with
    | some d => s!" idom {d.text}"
    | none => ""
  s!"{b.text}[{kind}]" ++ preds ++ idom ++ (if k.loop.isSome then " loop" else "") ++ ":\n"

def blockText (b : BlockId) : Except Fault String := do
  let k ← g.block b
  let initial := if b = graphEntry then g.initialDefinitions else []
  let lines ← (initial ++ (← g.livePhis b) ++ g.insts b).mapM g.instLine
  return blockLine b k ++ String.join lines

/-- The text of the whole graph. Before the first discovery only the two entries are shown. -/
def text : Except Fault String := do
  let shown := if g.postorder.isEmpty then [graphEntry, normalEntry] else g.reversePostorder
  let blocks ← shown.mapM g.blockText
  return s!"graph {g.name} ({g.parameterCount} params, {g.localCount} locals) \x7b\n" ++
    String.join blocks ++ "\x7d\n"

end Midend.FlowGraph
