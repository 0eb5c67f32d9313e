import Midend.Builder
import Midend.Proofs.Graph.Initial
import Midend.Proofs.Graph.Layout

/-! # Graphs that a builder makes

The graphs that come out of any sequence of builder commands, and what all of them have in common.
-/

namespace Midend

/-! ## Commands -/

/-- The opcodes that a form of instruction is meant for, where several share one form. -/
def Opcode.isUnary : Opcode → Bool
  | checkSmi | boxDouble | unboxDouble | boxInteger | unboxInteger | mathSqrt | doubleToSmi | doubleToInteger
  | smiToDouble | doubleTruncate | doubleRound | doubleFloor | doubleCeil | booleanNegate | stringFromCharCode
  | assertBoolean | ret | throw => true
  | _ => false

def Opcode.isBinaryOp : Opcode → Bool
  | binarySmiOp | binaryMintOp | shiftMintOp | binaryDoubleOp => true
  | _ => false

def Opcode.isUnaryOp : Opcode → Bool
  | unarySmiOp | unaryMintOp => true
  | _ => false

namespace Inst

/-- The opcode is one that the form is meant for. Phis are made by SSA construction alone. -/
def fits : Inst → Bool
  | unary o _ => o.isUnary
  | binary o _ _ => o == .checkEitherNonSmi
  | binaryOp o .. => o.isBinaryOp
  | unaryOp o .. => o.isUnaryOp
  | phi .. => false
  | _ => true

def slot? : Inst → Option Nat
  | loadLocal s | storeLocal s _ => some s
  | _ => none

end Inst

namespace FlowGraph

/-- A block that a builder may have handed out: any but the graph entry. -/
def Handle (g : FlowGraph) (b : BlockId) : Prop := b.index < g.blocks.size ∧ b ≠ graphEntry

/-- An instruction that refers to blocks and instructions of the graph only. -/
structure Admits (g : FlowGraph) (d : Inst) : Prop where
  fits : d.fits = true
  inputs : ∀ a ∈ d.args ++ d.arguments, a.index < g.nodes.size
  successors : ∀ s ∈ d.successors, g.Handle s
  slot : ∀ s, d.slot? = some s → s < NumberSet.limit

end FlowGraph

/-- What a builder can be told to do. The remaining functions of the builder add one instruction (`inst`) or a
call of a certain name (`instanceCall`), or do not pass the class of a result (`constructorCall`). -/
inductive Command where
  | targetBlock
  | joinBlock
  | catchEntry
  | appendTo (b : BlockId)
  | inst (d : Inst)
  | pushArgument (value : InstId)
  | instanceCall (selector : String) (token : Token) (values : List InstId) (checked : Nat)
      (feedback : Option InlineCache)
  | constructorCall (function : FunctionId) (values : List InstId) (result : ClassId)
  | allocateObject (cls : ClassId) (values : List InstId)
  | createArray (values : List InstId)
  | branchIf (condition : InstId) (onTrue onFalse : BlockId)

namespace Command

def run : Command → Build Unit
  | targetBlock => discard Build.targetBlock
  | joinBlock => discard Build.joinBlock
  | catchEntry => discard Build.catchEntry
  | appendTo b => Build.appendTo b
  | inst d => discard (Build.inst d)
  | pushArgument v => discard (Build.pushArgument v)
  | instanceCall s t vs n ic => discard (Build.instanceCall s t vs n ic)
  | constructorCall f vs r => discard (Build.constructorCall f vs r)
  | allocateObject c vs => discard (Build.allocateObject c vs)
  | createArray vs => discard (Build.createArray vs)
  | branchIf c t e => discard (Build.branchIf c t e)

/-- The command uses only handles of the graph, and a new block gets a key. -/
def Valid (g : FlowGraph) : Command → Prop
  | targetBlock | joinBlock | catchEntry => g.blocks.size < keyLimit
  | appendTo b => g.Handle b
  | inst d => g.Admits d
  | pushArgument v => v.index < g.nodes.size
  | instanceCall _ _ vs _ _ | constructorCall _ vs _ | allocateObject _ vs | createArray vs =>
    ∀ v ∈ vs, v.index < g.nodes.size
  | branchIf c t e => c.index < g.nodes.size ∧ g.Handle t ∧ g.Handle e

end Command

/-- The graphs that commands lead to, with the block that instructions are added to. -/
inductive Built : BlockId → FlowGraph → Prop
  | start {name : String} {parameters locals : Nat} {owner : Option ClassId}
      (hslots : parameters + locals < NumberSet.limit) :
      Built FlowGraph.normalEntry { FlowGraph.new name parameters locals with owner }
  | step {b b' : BlockId} {g g' : FlowGraph} {c : Command} (h : Built b g) (hc : c.Valid g)
      (hrun : c.run b g = .ok (((), b'), g')) : Built b' g'

/-! ## What built graphs have in common -/

/-- A graph that is not in SSA form yet: every instruction is in a block, none has an environment, and no uses
are recorded but whether the unoptimized code pops the value. -/
structure Raw (g : FlowGraph) : Prop where
  layout : g.layout.Sound
  home : ∀ (i : InstId) (n : Node), g.nodes[i.index]? = some n →
    ∃ b, n.block = some b ∧ g.layout.home? i = some b ∧ g.Handle b
  placed : ∀ i b, g.layout.home? i = some b → i.index < g.nodes.size
  admits : ∀ (i : InstId) (n : Node), g.nodes[i.index]? = some n → g.Admits n.inst
  fresh : ∀ (i : InstId) (n : Node), g.nodes[i.index]? = some n → n.env = none ∧ n.inputUses = [] ∧ n.envUses = []
  used : ∀ (i : InstId) (n : Node), g.nodes[i.index]? = some n →
    (n.isUsed = true ↔ ∃ (j : InstId) (m : Node), g.nodes[j.index]? = some m ∧ i ∈ m.inst.args)
  block : ∀ (b : BlockId) (k : Block), g.blocks[b.index]? = some k → k = { kind := k.kind }
  top : g.blocks[FlowGraph.graphEntry.index]? = some { kind := .graphEntry }
  entry : g.blocks[FlowGraph.normalEntry.index]? = some { kind := .target }
  size : g.blocks.size ≤ keyLimit
  initial : g.initialDefinitions = []
  slots : g.parameterCount + g.localCount < NumberSet.limit
  deoptIds : ∀ (i : InstId) (n : Node), g.nodes[i.index]? = some n →
    n.deoptId.isSome = Build.needsDeoptId n.inst.opcode
  unnamed : ∀ (i : InstId) (n : Node), g.nodes[i.index]? = some n → n.ssaIndex = none

namespace FlowGraph

variable {g : FlowGraph} {b : BlockId} {d : Inst} {is : List InstId}

/-- The graph in which the values of `as` are popped from the stack by someone. -/
def marked (g : FlowGraph) (as : List InstId) : FlowGraph :=
  g.mapNodes fun j n => { n with isUsed := n.isUsed || decide (j ∈ as) }

@[simp] theorem nextId_marked (as : List InstId) : (g.marked as).nextId = g.nextId := by
  simp [nextId, marked]

@[simp] theorem size_marked (as : List InstId) : (g.marked as).nodes.size = g.nodes.size := size_mapNodes

/-- The graph with the new instruction `n`, which is not placed yet. -/
def made (g : FlowGraph) (n : Node) (next : Nat) : FlowGraph :=
  { (g.marked n.inst.args).withInst n with nextDeoptId := next }

/-- The graph with `d` as a new instruction of `b`, whose list becomes `is`. -/
def built (g : FlowGraph) (b : BlockId) (d : Inst) (is : List InstId) (deoptId : Option Nat) (next : Nat) :
    FlowGraph :=
  (g.made { inst := d, block := some b, deoptId } next).withLayout (g.layout.place g.nextId b is)

theorem withNode_made (n : Node) (next : Nat) {f : Node → Node} (hf : (f n).inst = n.inst) :
    (g.made n next).withNode g.nextId f = g.made (f n) next := by
  have h := withNode_withInst (g := g.marked n.inst.args) n f
  rw [nextId_marked] at h
  unfold made
  rw [hf]
  exact congrArg (fun x : FlowGraph => { x with nextDeoptId := next }) h

theorem nodes_built {deoptId : Option Nat} {next : Nat} (j : InstId) :
    (g.built b d is deoptId next).nodes[j.index]? =
      if j = g.nextId then some { inst := d, block := some b, deoptId }
      else (g.nodes[j.index]?).map fun n => { n with isUsed := n.isUsed || decide (j ∈ d.args) } := by
  have h := nodes_withInst (g := g.marked d.args) { inst := d, block := some b, deoptId } j
  rw [nextId_marked, marked, nodes_mapNodes] at h
  exact h

theorem size_built {deoptId : Option Nat} {next : Nat} :
    (g.built b d is deoptId next).nodes.size = g.nodes.size + 1 := by
  simp [built, made, withInst, withLayout]

theorem Admits.of_le {g g' : FlowGraph} {d : Inst} (h : g.Admits d) (hnodes : g.nodes.size ≤ g'.nodes.size)
    (hblocks : g.blocks.size ≤ g'.blocks.size) : g'.Admits d where
  fits := h.fits
  inputs := fun a ha => Nat.lt_of_lt_of_le (h.inputs a ha) hnodes
  successors := fun s hs => ⟨Nat.lt_of_lt_of_le (h.successors s hs).1 hblocks, (h.successors s hs).2⟩
  slot := h.slot

end FlowGraph

namespace Raw

variable {g : FlowGraph} {b : BlockId} {d : Inst} {is : List InstId}

theorem home?_nextId (hg : Raw g) : g.layout.home? g.nextId = none := by
  cases h : g.layout.home? g.nextId with
  | none => rfl
  | some b => exact absurd (hg.placed _ _ h) (Nat.lt_irrefl _)

theorem ne_nextId {i : InstId} {n : Node} (hn : g.nodes[i.index]? = some n) : i ≠ g.nextId := by
  have hlt : i.index < g.nodes.size := (Array.getElem?_eq_some_iff.mp hn).1
  exact fun h => by simp [h, FlowGraph.nextId] at hlt

theorem built (hg : Raw g) (hb : g.Handle b) (hd : g.Admits d) (his : is.Perm (g.nextId :: g.insts b))
    {deoptId : Option Nat} (hid : deoptId.isSome = Build.needsDeoptId d.opcode) (next : Nat) :
    Raw (g.built b d is deoptId next) where
  layout := hg.layout.place hg.home?_nextId his
  home := by
    intro i n hn
    rw [FlowGraph.nodes_built] at hn
    have hhome : (g.built b d is deoptId next).layout.home? i = if i = g.nextId then some b else g.layout.home? i :=
      Layout.home?_place is
    rw [hhome]
    by_cases hi : i = g.nextId
    · rw [if_pos hi, Option.some_inj] at hn
      exact ⟨b, by rw [← hn], if_pos hi, hb⟩
    · rw [if_neg hi] at hn
      obtain ⟨m, hm, rfl⟩ := Option.map_eq_some_iff.mp hn
      obtain ⟨c, hc, hhome, hhandle⟩ := hg.home i m hm
      exact ⟨c, hc, by rw [if_neg hi, hhome], hhandle⟩
  placed := by
    intro i c hc
    have hhome : (g.built b d is deoptId next).layout.home? i = if i = g.nextId then some b else g.layout.home? i :=
      Layout.home?_place is
    rw [hhome] at hc
    rw [FlowGraph.size_built]
    split at hc
    case isTrue hi => simp [hi, FlowGraph.nextId]
    case isFalse => exact Nat.lt_succ_of_lt (hg.placed i c hc)
  admits := by
    intro i n hn
    have hsize : g.nodes.size ≤ (g.built b d is deoptId next).nodes.size := by simp [FlowGraph.size_built]
    refine FlowGraph.Admits.of_le ?_ hsize (Nat.le_refl _)
    rw [FlowGraph.nodes_built] at hn
    by_cases hi : i = g.nextId
    · rw [if_pos hi, Option.some_inj] at hn
      rwa [← hn]
    · rw [if_neg hi] at hn
      obtain ⟨m, hm, rfl⟩ := Option.map_eq_some_iff.mp hn
      exact hg.admits i m hm
  fresh := by
    intro i n hn
    rw [FlowGraph.nodes_built] at hn
    by_cases hi : i = g.nextId
    · rw [if_pos hi, Option.some_inj] at hn
      simp [← hn]
    · rw [if_neg hi] at hn
      obtain ⟨m, hm, rfl⟩ := Option.map_eq_some_iff.mp hn
      exact hg.fresh i m hm
  used := by
    intro i n hn
    -- The inputs of the new instruction are older than it is.
    have hold : g.nextId ∉ d.args := fun h => Nat.lt_irrefl _ (hd.inputs _ (List.mem_append_left _ h))
    have hnone (j : InstId) (m : Node) (hm : g.nodes[j.index]? = some m) : g.nextId ∉ m.inst.args := fun h =>
      Nat.lt_irrefl _ ((hg.admits j m hm).inputs _ (List.mem_append_left _ h))
    have hargs : (∃ (j : InstId) (m : Node), (g.built b d is deoptId next).nodes[j.index]? = some m ∧ i ∈ m.inst.args) ↔
        i ∈ d.args ∨ ∃ (j : InstId) (m : Node), g.nodes[j.index]? = some m ∧ i ∈ m.inst.args := by
      constructor
      · rintro ⟨j, m, hm, hi⟩
        rw [FlowGraph.nodes_built] at hm
        split at hm
        · rw [Option.some_inj] at hm
          exact .inl (by rwa [← hm] at hi)
        · obtain ⟨m', hm', rfl⟩ := Option.map_eq_some_iff.mp hm
          exact .inr ⟨j, m', hm', hi⟩
      · rintro (hi | ⟨j, m, hm, hi⟩)
        · exact ⟨g.nextId, _, by rw [FlowGraph.nodes_built, if_pos rfl], hi⟩
        · have hm' : (g.built b d is deoptId next).nodes[j.index]? = _ := FlowGraph.nodes_built j
          rw [if_neg (ne_nextId hm), hm, Option.map_some] at hm'
          exact ⟨j, _, hm', hi⟩
    rw [hargs]
    rw [FlowGraph.nodes_built] at hn
    by_cases hi : i = g.nextId
    · subst hi
      rw [if_pos rfl, Option.some_inj] at hn
      subst hn
      simp only [Bool.false_eq_true, false_iff, not_or, not_exists, not_and]
      exact ⟨hold, hnone⟩
    · rw [if_neg hi] at hn
      obtain ⟨m, hm, rfl⟩ := Option.map_eq_some_iff.mp hn
      rw [← hg.used i m hm]
      simp [or_comm]
  block := hg.block
  top := hg.top
  entry := hg.entry
  size := hg.size
  initial := hg.initial
  slots := hg.slots
  deoptIds := by
    intro i n hn
    rw [FlowGraph.nodes_built] at hn
    by_cases hi : i = g.nextId
    · rw [if_pos hi, Option.some_inj] at hn
      simpa [← hn] using hid
    · rw [if_neg hi] at hn
      obtain ⟨m, hm, rfl⟩ := Option.map_eq_some_iff.mp hn
      exact hg.deoptIds i m hm
  unnamed := by
    intro i n hn
    rw [FlowGraph.nodes_built] at hn
    by_cases hi : i = g.nextId
    · rw [if_pos hi, Option.some_inj] at hn
      rw [← hn]
    · rw [if_neg hi] at hn
      obtain ⟨m, hm, rfl⟩ := Option.map_eq_some_iff.mp hn
      exact hg.unnamed i m hm

theorem getElem?_push_of_some {k k' : Block} (h : g.blocks[b.index]? = some k) :
    (g.blocks.push k')[b.index]? = some k := by
  have hlt := (Array.getElem?_eq_some_iff.mp h).1
  rw [Array.getElem?_push, if_neg (Nat.ne_of_lt hlt), h]

theorem blocks_push (hg : Raw g) (kind : BlockKind) (hsize : g.blocks.size < keyLimit) (entries : List BlockId) :
    Raw { g with blocks := g.blocks.push { kind }, catchEntries := entries } where
  layout := hg.layout
  home := by
    intro i n hn
    obtain ⟨b, hb, hhome, hlt, hne⟩ := hg.home i n hn
    exact ⟨b, hb, hhome, by simp; omega, hne⟩
  placed := hg.placed
  admits := fun i n hn => (hg.admits i n hn).of_le (Nat.le_refl _) (by simp)
  fresh := hg.fresh
  used := hg.used
  block := by
    intro b k hk
    simp only [Array.getElem?_push] at hk
    split at hk
    · rw [Option.some_inj] at hk
      rw [← hk]
    · exact hg.block b k hk
  top := getElem?_push_of_some hg.top
  entry := getElem?_push_of_some hg.entry
  size := by simp; omega
  initial := hg.initial
  slots := hg.slots
  deoptIds := hg.deoptIds
  unnamed := hg.unnamed

end Raw

/-! ## Running commands -/

/-- The new instruction `i` is `d`, in the block `b`, whose list becomes `is`. -/
def Adds (g : FlowGraph) (b : BlockId) (d : Inst) (is : List InstId) (i : InstId) (g' : FlowGraph) : Prop :=
  i = g.nextId ∧ ∃ (deoptId : Option Nat) (next : Nat), deoptId.isSome = Build.needsDeoptId d.opcode ∧
    g' = g.built b d is deoptId next

/-- The list with `i` right behind `v`, or at the end if `v` is not in it. -/
def pushInto (v i : InstId) (is : List InstId) : List InstId := if v ∈ is then Layout.putAfter v i is else is ++ [i]

theorem pushInto_perm (v i : InstId) (is : List InstId) : (pushInto v i is).Perm (i :: is) := by
  unfold pushInto
  split
  case isTrue hv => exact Layout.putAfter_perm hv
  case isFalse => exact List.perm_append_singleton _ _

/-- `P` stays true of a raw graph that gets new blocks and instructions, if only values that satisfy `may` are
pushed. -/
structure Lasts (may : InstId → Prop) (P : FlowGraph → Prop) : Prop where
  block : ∀ {g : FlowGraph} (kind : BlockKind) (entries : List BlockId), P g →
    P { g with blocks := g.blocks.push { kind }, catchEntries := entries }
  inst : ∀ {g g' : FlowGraph} {b : BlockId} {d : Inst} {i : InstId}, Raw g → P g →
    Adds g b d (g.insts b ++ [g.nextId]) i g' → P g'
  push : ∀ {g g' : FlowGraph} {b : BlockId} {v i : InstId}, Raw g → may v → P g →
    Adds g b (.pushArgument v) (pushInto v g.nextId (g.insts b)) i g' → P g'

theorem Lasts.trivial : Lasts (fun _ => True) fun _ => True :=
  ⟨fun _ _ _ => True.intro, fun _ _ _ => True.intro, fun _ _ _ _ => True.intro⟩

/-- Every instruction of `g` and every block is still there, and `P` stays true. -/
structure Grown (P : FlowGraph → Prop) (g g' : FlowGraph) : Prop where
  raw : Raw g'
  nodes : g.nodes.size ≤ g'.nodes.size
  blocks : g'.blocks = g.blocks
  keeps : P g → P g'

namespace Grown

variable {P : FlowGraph → Prop} {g g' g'' : FlowGraph}

theorem refl (hg : Raw g) : Grown P g g := ⟨hg, Nat.le_refl _, rfl, id⟩

theorem trans (h : Grown P g g') (h' : Grown P g' g'') : Grown P g g'' :=
  ⟨h'.raw, Nat.le_trans h.nodes h'.nodes, h'.blocks.trans h.blocks, fun hP => h'.keeps (h.keeps hP)⟩

theorem handle (h : Grown P g g') {b : BlockId} (hb : g.Handle b) : g'.Handle b := by
  rwa [FlowGraph.Handle, h.blocks]

end Grown

theorem Adds.grown {P : FlowGraph → Prop} {g g' : FlowGraph} {b : BlockId} {d : Inst} {is : List InstId} {i : InstId}
    (h : Adds g b d is i g') (hg : Raw g) (hb : g.Handle b) (hd : g.Admits d) (his : is.Perm (g.nextId :: g.insts b))
    (hP : P g → P g') : Grown P g g' ∧ i.index < g'.nodes.size := by
  obtain ⟨rfl, deoptId, next, hid, rfl⟩ := h
  exact ⟨⟨hg.built hb hd his hid next, by simp [FlowGraph.size_built], rfl, hP⟩,
    by simp [FlowGraph.size_built, FlowGraph.nextId]⟩

namespace Leads

variable {g : FlowGraph} {b : BlockId}

theorem markUsed {as : List InstId} (has : ∀ a ∈ as, a.index < g.nodes.size) :
    Leads False g (as.forM Build.markUsed) fun _ g' => g' = g.marked as := by
  refine forM (fun done g' => g' = g.marked done) (by simp [FlowGraph.marked]) ?_
  rintro done a rest _ rfl rfl
  have hlt : a.index < g.nodes.size := has a (by simp)
  simp only [Build.markUsed, modifyNode_iff, FlowGraph.size_marked, hlt, true_implies, Nat.not_le.mpr hlt,
    false_implies, and_true]
  simp only [FlowGraph.marked, FlowGraph.withNode, FlowGraph.mapNodes_mapNodes]
  refine FlowGraph.mapNodes_congr fun j n _ => ?_
  by_cases hj : j = a <;> simp [hj]

theorem link {n : Node} {next : Nat} {is : List InstId} (hn : n = { inst := n.inst, deoptId := n.deoptId }) :
    Leads False ((g.made n next).withLayout (g.layout.place g.nextId b is)) (Edit.setBlock g.nextId (some b))
      fun _ g' => g' = g.built b n.inst is n.deoptId next := by
  have hlast : g.nextId.index < (g.made n next).nodes.size := by
    simp [FlowGraph.made, FlowGraph.nextId]
  have hgraph : ((g.made n next).withLayout (g.layout.place g.nextId b is)).withNode g.nextId
      (fun m => { m with block := some b }) = g.built b n.inst is n.deoptId next := by
    rw [FlowGraph.withNode_withLayout, FlowGraph.withNode_made n next rfl, hn]
    rfl
  rw [Edit.setBlock, modifyNode_iff, FlowGraph.nodes_withLayout, hgraph]
  exact ⟨fun _ => rfl, fun h => absurd hlast (Nat.not_lt.mpr h)⟩

theorem buildAt_adds (hg : Raw g) {d : Inst} (hd : g.Admits d) :
    Leads False g (Build.buildAt b d) (Adds g b d (g.insts b ++ [g.nextId])) := by
  have happend : g.layout.append g.nextId b = .ok (g.layout.place g.nextId b (g.insts b ++ [g.nextId])) :=
    Layout.append_eq_ok.mpr ⟨hg.home?_nextId, rfl⟩
  have hlink (deoptId : Option Nat) (hid : deoptId.isSome = Build.needsDeoptId d.opcode) (next : Nat) :
      Leads False (g.made { inst := d, deoptId } next) (Edit.link b g.nextId)
        fun _ => Adds g b d (g.insts b ++ [g.nextId]) g.nextId := by
    simp only [Edit.link, bind_iff, onLayout_iff]
    refine (congrArg (Yields False · _) happend).mpr ?_
    rw [Yields.ok_iff]
    exact (link (n := { inst := d, deoptId }) rfl).mono fun _ _ h => ⟨rfl, deoptId, next, hid, h⟩
  unfold Build.buildAt
  rw [bind_iff]
  refine (markUsed fun a ha => hd.inputs a (List.mem_append_left _ ha)).mono ?_
  rintro _ _ rfl
  rw [bind_iff, addInst_iff, FlowGraph.nextId_marked]
  split
  case isTrue hneeds =>
    have hlast : g.nextId.index < (g.made { inst := d } (g.nextDeoptId + 1)).nodes.size := by
      simp [FlowGraph.made, FlowGraph.nextId]
    simp only [Edit.allocDeoptId, bind_iff, get_iff, modify_iff, pure_iff]
    rw [modifyNode_iff]
    refine ⟨fun _ => ?_, fun h => absurd hlast (Nat.not_lt.mpr h)⟩
    have hgraph := FlowGraph.withNode_made (g := g) { inst := d } (g.nextDeoptId + 1)
      (f := fun n => { n with deoptId := some g.nextDeoptId }) rfl
    exact (congrArg (Leads False · _ _) hgraph).mpr (hlink (some g.nextDeoptId) hneeds.symm _)
  case isFalse hneeds =>
    simp only [bind_iff, pure_iff]
    exact hlink none (by simpa using hneeds) g.nextDeoptId

end Leads

namespace Threads

variable {may : InstId → Prop} {P : FlowGraph → Prop} {g : FlowGraph} {b : BlockId}

theorem inst_adds (hg : Raw g) {d : Inst} (hd : g.Admits d) :
    Threads False g b (Build.inst d) fun i b' g' => b = b' ∧ Adds g b d (g.insts b ++ [g.nextId]) i g' := by
  simp only [Build.inst, bind_iff, get_iff, lift_iff, true_and]
  exact Leads.buildAt_adds hg hd

theorem inst (hP : Lasts may P) (hg : Raw g) (hb : g.Handle b) {d : Inst} (hd : g.Admits d) :
    Threads False g b (Build.inst d) fun i b' g' => b = b' ∧ Grown P g g' ∧ i.index < g'.nodes.size :=
  (inst_adds hg hd).mono fun _ _ _ h =>
    ⟨h.1, h.2.grown hg hb hd (List.perm_append_singleton _ _) fun hp => hP.inst hg hp h.2⟩

theorem admits_pushArgument {v : InstId} (hv : v.index < g.nodes.size) : g.Admits (.pushArgument v) :=
  ⟨rfl, by simpa [Inst.args, Inst.arguments] using hv, by simp [Inst.successors], by simp [Inst.slot?]⟩

theorem pushArgument_adds (hg : Raw g) {v : InstId} (hv : v.index < g.nodes.size) :
    Threads False g b (Build.pushArgument v) fun i b' g' =>
      b = b' ∧ Adds g b (.pushArgument v) (pushInto v g.nextId (g.insts b)) i g' := by
  obtain ⟨n, hn⟩ : ∃ n, g.nodes[v.index]? = some n := ⟨_, Array.getElem?_eq_getElem hv⟩
  obtain ⟨c, hc, hhome, hhandle⟩ := hg.home v n hn
  have hblock : g.instBlock v = .ok (some c) := FlowGraph.instBlock_eq_ok.mpr ⟨n, hn, hc⟩
  have hmem : v ∈ g.insts b ↔ c = b := by rw [FlowGraph.insts, hg.layout.mem_iff, hhome, Option.some_inj]
  unfold Build.pushArgument pushInto
  simp only [bind_iff, get_iff, getThe_iff, read_iff, hblock, Yields.ok_iff]
  split
  case isTrue hcb =>
    rw [if_neg fun h => hcb (by rw [hmem.mp h])]
    exact inst_adds hg (admits_pushArgument hv)
  case isFalse hcb =>
    obtain rfl : c = b := by simpa using hcb
    rw [if_pos (hmem.mpr rfl)]
    have hafter : g.layout.insertAfter g.nextId v =
        .ok (g.layout.place g.nextId c (Layout.putAfter v g.nextId (g.insts c))) :=
      Layout.insertAfter_eq_ok.mpr ⟨c, hhome, hg.home?_nextId, rfl⟩
    have hmark : Leads False g ([v].forM Build.markUsed) fun _ g' => g' = g.marked [v] :=
      Leads.markUsed (by simpa using hv)
    change Leads False g (Build.markUsed v >>= fun _ => pure ()) _ at hmark
    simp only [Leads.bind_iff, Leads.pure_iff] at hmark
    simp only [bind_iff, lift_iff, pure_iff, true_and]
    refine hmark.mono ?_
    rintro _ _ rfl
    rw [Leads.addInst_iff, FlowGraph.nextId_marked, Edit.linkAfter, Leads.bind_iff, Leads.onLayout_iff]
    refine (congrArg (Yields False · _) hafter).mpr ?_
    have hanchor : ((g.made { inst := .pushArgument v } g.nextDeoptId).withLayout
        (g.layout.place g.nextId c (Layout.putAfter v g.nextId (g.insts c)))).node v =
          .ok { n with isUsed := n.isUsed || decide (v ∈ [v]) } := by
      rw [FlowGraph.node_eq_ok, FlowGraph.nodes_withLayout]
      refine (FlowGraph.nodes_withInst (g := g.marked [v]) _ v).trans ?_
      rw [FlowGraph.nextId_marked, if_neg (Raw.ne_nextId hn), FlowGraph.marked, FlowGraph.nodes_mapNodes, hn]
      rfl
    simp only [Yields.ok_iff, Leads.bind_iff, Leads.get_iff, Leads.lift_iff]
    refine (congrArg (Yields False · _) hanchor).mpr ?_
    rw [Yields.ok_iff, hc]
    exact (Leads.link (n := { inst := .pushArgument v }) rfl).mono fun _ _ h => ⟨rfl, none, g.nextDeoptId, rfl, h⟩

theorem pushArgument (hP : Lasts may P) (hg : Raw g) (hb : g.Handle b) {v : InstId} (hv : v.index < g.nodes.size)
    (hmay : may v) :
    Threads False g b (Build.pushArgument v) fun i b' g' => b = b' ∧ Grown P g g' ∧ i.index < g'.nodes.size :=
  (pushArgument_adds hg hv).mono fun _ _ _ h =>
    ⟨h.1, h.2.grown hg hb (admits_pushArgument hv) (pushInto_perm _ _ _) fun hp => hP.push hg hmay hp h.2⟩

theorem pushArguments (hP : Lasts may P) (hg : Raw g) (hb : g.Handle b) {vs : List InstId}
    (hvs : ∀ v ∈ vs, v.index < g.nodes.size) (hmay : ∀ v ∈ vs, may v) :
    Threads False g b (Build.pushArguments vs) fun is b' g' =>
      b = b' ∧ Grown P g g' ∧ ∀ i ∈ is, i.index < g'.nodes.size := by
  unfold Build.pushArguments
  induction vs generalizing g with
  | nil => simpa using .refl hg
  | cons v vs ih =>
    rw [List.forall_mem_cons] at hvs hmay
    simp only [List.mapM_cons, bind_iff, pure_iff]
    refine (pushArgument hP hg hb hvs.1 hmay.1).mono ?_
    rintro i _ g₁ ⟨rfl, h₁, hi⟩
    refine (ih h₁.raw (h₁.handle hb) (fun u hu => Nat.lt_of_lt_of_le (hvs.2 u hu) h₁.nodes) hmay.2).mono ?_
    rintro is _ g₂ ⟨rfl, h₂, his⟩
    exact ⟨rfl, h₁.trans h₂, List.forall_mem_cons.mpr ⟨Nat.lt_of_lt_of_le hi h₂.nodes, his⟩⟩

theorem call (hP : Lasts may P) (hg : Raw g) (hb : g.Handle b) {vs : List InstId}
    (hvs : ∀ v ∈ vs, v.index < g.nodes.size) (hmay : ∀ v ∈ vs, may v)
    {d : List InstId → Inst} (hfits : ∀ is, (d is).fits = true) (hargs : ∀ is, (d is).args = [])
    (harguments : ∀ is, (d is).arguments = is) (hsuccs : ∀ is, (d is).successors = [])
    (hslot : ∀ is, (d is).slot? = none) :
    Threads False g b (do let is ← Build.pushArguments vs; Build.inst (d is)) fun _ b' g' => b = b' ∧ Grown P g g' := by
  rw [bind_iff]
  refine (pushArguments hP hg hb hvs hmay).mono ?_
  rintro is _ g₁ ⟨rfl, h₁, his⟩
  have hd : g₁.Admits (d is) :=
    ⟨hfits is, by simpa [hargs, harguments] using his, by simp [hsuccs], by simp [hslot]⟩
  refine (inst hP h₁.raw (h₁.handle hb) hd).mono ?_
  rintro i _ g₂ ⟨rfl, h₂, -⟩
  exact ⟨rfl, h₁.trans h₂⟩

end Threads

def Command.pushes : Command → List InstId
  | pushArgument v => [v]
  | instanceCall _ _ vs _ _ | constructorCall _ vs _ | allocateObject _ vs | createArray vs => vs
  | _ => []

theorem Command.run_keeps {may : InstId → Prop} {P : FlowGraph → Prop} (hP : Lasts may P) {g : FlowGraph} {b : BlockId}
    (hg : Raw g) (hb : g.Handle b) {c : Command} (hc : c.Valid g) (hmay : ∀ v ∈ c.pushes, may v) (hp : P g) :
    Threads False g b c.run fun _ b' g' => Raw g' ∧ g'.Handle b' ∧ P g' := by
  have hkeep {α : Type} {m : Build α} (h : Threads False g b m fun _ b' g' => b = b' ∧ Grown P g g') :
      Threads False g b (discard m) fun _ b' g' => Raw g' ∧ g'.Handle b' ∧ P g' := by
    rw [Threads.discard_iff]
    refine h.mono ?_
    rintro _ _ g' ⟨rfl, h'⟩
    exact ⟨h'.raw, h'.handle hb, h'.keeps hp⟩
  have hblock (kind : BlockKind) (entries : List BlockId) (hsize : g.blocks.size < keyLimit) :
      Raw { g with blocks := g.blocks.push { kind }, catchEntries := entries } ∧
        FlowGraph.Handle { g with blocks := g.blocks.push { kind }, catchEntries := entries } b ∧
        P { g with blocks := g.blocks.push { kind }, catchEntries := entries } :=
    ⟨hg.blocks_push kind hsize entries, by have := hb.1; simp [FlowGraph.Handle, hb.2]; omega, hP.block kind entries hp⟩
  cases c with
  | targetBlock => exact hblock .target g.catchEntries hc
  | joinBlock => exact hblock .join g.catchEntries hc
  | catchEntry => exact hblock .target (g.catchEntries ++ [⟨g.blocks.size⟩]) hc
  | appendTo b' => exact ⟨hg, hc, hp⟩
  | inst d => exact hkeep ((Threads.inst hP hg hb hc).mono fun _ _ _ h => ⟨h.1, h.2.1⟩)
  | pushArgument v =>
    exact hkeep ((Threads.pushArgument hP hg hb hc (hmay v List.mem_cons_self)).mono fun _ _ _ h => ⟨h.1, h.2.1⟩)
  | instanceCall s t vs n ic =>
    exact hkeep (Threads.call hP hg hb hc hmay (d := fun is => .instanceCall ⟨s, t, is, ic, n⟩) (fun _ => rfl)
      (fun _ => rfl) (fun _ => rfl) (fun _ => rfl) fun _ => rfl)
  | constructorCall f vs r =>
    exact hkeep (Threads.call hP hg hb hc hmay (d := fun is => .staticCall f is r) (fun _ => rfl) (fun _ => rfl)
      (fun _ => rfl) (fun _ => rfl) fun _ => rfl)
  | allocateObject cls vs =>
    exact hkeep (Threads.call hP hg hb hc hmay (d := fun is => .allocateObject cls is) (fun _ => rfl) (fun _ => rfl)
      (fun _ => rfl) (fun _ => rfl) fun _ => rfl)
  | createArray vs =>
    exact hkeep (Threads.call hP hg hb hc hmay (d := fun is => .createArray is) (fun _ => rfl) (fun _ => rfl)
      (fun _ => rfl) (fun _ => rfl) fun _ => rfl)
  | branchIf cond t e =>
    obtain ⟨hcond, ht, he⟩ := hc
    refine hkeep ?_
    unfold Build.branchIf
    rw [Threads.bind_iff]
    refine (Threads.inst hP hg hb ⟨rfl, by simp [Inst.args, Inst.arguments], by simp [Inst.successors],
      by simp [Inst.slot?]⟩).mono ?_
    rintro i _ g₁ ⟨rfl, h₁, hi⟩
    have hcond₁ : cond.index < g₁.nodes.size := Nat.lt_of_lt_of_le hcond h₁.nodes
    have hd : g₁.Admits (.branch (.strict .eqStrict cond i) t e) :=
      ⟨rfl, by simpa [Inst.args, Inst.arguments, Comparison.strict] using ⟨hcond₁, hi⟩,
        by simpa [Inst.successors] using ⟨h₁.handle ht, h₁.handle he⟩, by simp [Inst.slot?]⟩
    refine (Threads.inst hP h₁.raw (h₁.handle hb) hd).mono ?_
    rintro j _ g₂ ⟨rfl, h₂, -⟩
    exact ⟨rfl, h₁.trans h₂⟩

theorem Command.run_raw {g : FlowGraph} {b : BlockId} (hg : Raw g) (hb : g.Handle b) {c : Command} (hc : c.Valid g) :
    Threads False g b c.run fun _ b' g' => Raw g' ∧ g'.Handle b' :=
  (run_keeps .trivial hg hb hc (fun _ _ => trivial) trivial).mono fun _ _ _ h => ⟨h.1, h.2.1⟩

theorem Built.raw {b : BlockId} {g : FlowGraph} (h : Built b g) : Raw g ∧ g.Handle b := by
  induction h with
  | @start name parameters locals owner hslots =>
    refine ⟨⟨Layout.Sound.empty, ?_, ?_, ?_, ?_, ?_, ?_, rfl, rfl, ?_, rfl, hslots, by simp [FlowGraph.new],
      by simp [FlowGraph.new]⟩, ?_⟩
    · simp [FlowGraph.new]
    · simp [FlowGraph.new, Layout.home?, SideTable.get?]
    · simp [FlowGraph.new]
    · simp [FlowGraph.new]
    · simp [FlowGraph.new]
    · intro b k hk
      match b with
      | ⟨0⟩ | ⟨1⟩ =>
        obtain rfl : _ = k := Option.some_inj.mp hk
        rfl
      | ⟨n + 2⟩ => simp [FlowGraph.new] at hk
    · simp [FlowGraph.new, keyLimit]
    · simp [FlowGraph.Handle, FlowGraph.new, FlowGraph.normalEntry, FlowGraph.graphEntry]
  | step h hc hrun ih =>
    exact Leads.post_of_ok (Command.run_raw ih.1 ih.2 hc) hrun

/-! ## Scripts -/

instance (g : FlowGraph) (b : BlockId) : Decidable (g.Handle b) :=
  inferInstanceAs (Decidable (b.index < g.blocks.size ∧ b ≠ FlowGraph.graphEntry))

instance (g : FlowGraph) (d : Inst) : Decidable (g.Admits d) :=
  decidable_of_iff (d.fits = true ∧ (∀ a ∈ d.args ++ d.arguments, a.index < g.nodes.size) ∧
      (∀ s ∈ d.successors, g.Handle s) ∧ ∀ s ∈ d.slot?, s < NumberSet.limit)
    ⟨fun ⟨hfits, hin, hsucc, hslot⟩ => ⟨hfits, hin, hsucc, hslot⟩, fun h => ⟨h.fits, h.inputs, h.successors, h.slot⟩⟩

instance Command.decidableValid (g : FlowGraph) : (c : Command) → Decidable (c.Valid g)
  | targetBlock | joinBlock | catchEntry => inferInstanceAs (Decidable (g.blocks.size < keyLimit))
  | appendTo b => inferInstanceAs (Decidable (g.Handle b))
  | inst d => inferInstanceAs (Decidable (g.Admits d))
  | pushArgument v => inferInstanceAs (Decidable (v.index < g.nodes.size))
  | instanceCall _ _ vs _ _ | constructorCall _ vs _ | allocateObject _ vs | createArray vs =>
    inferInstanceAs (Decidable (∀ v ∈ vs, v.index < g.nodes.size))
  | branchIf c t e => inferInstanceAs (Decidable (c.index < g.nodes.size ∧ g.Handle t ∧ g.Handle e))

/-- Runs commands one after another, each of which has to use handles of the graph so far. -/
def Command.script : List Command → BlockId → FlowGraph → Option (BlockId × FlowGraph)
  | [], b, g => some (b, g)
  | c :: cs, b, g =>
    if c.Valid g then
      match c.run b g with
      | .ok ((_, b'), g') => script cs b' g'
      | .error _ => none
    else none

/-- What every command keeps, a script keeps. -/
theorem Command.script_keeps {may : InstId → Prop} {P : FlowGraph → Prop} (hP : Lasts may P) {cs : List Command}
    {b b' : BlockId} {g g' : FlowGraph} (hg : Raw g) (hb : g.Handle b) (hmay : ∀ c ∈ cs, ∀ v ∈ c.pushes, may v)
    (hp : P g) (hrun : Command.script cs b g = some (b', g')) : Raw g' ∧ P g' := by
  induction cs generalizing b g with
  | nil =>
    obtain ⟨-, rfl⟩ : b = b' ∧ g = g' := by simpa [Command.script] using hrun
    exact ⟨hg, hp⟩
  | cons c cs ih =>
    rw [List.forall_mem_cons] at hmay
    unfold Command.script at hrun
    split at hrun
    case isTrue hc =>
      split at hrun
      case h_1 b₁ g₁ hstep =>
        obtain ⟨hg₁, hb₁, hp₁⟩ := Leads.post_of_ok (Command.run_keeps hP hg hb hc hmay.1 hp) hstep
        exact ih hg₁ hb₁ hmay.2 hp₁ hrun
      case h_2 => cases hrun
    case isFalse => cases hrun

theorem Built.script {cs : List Command} {b b' : BlockId} {g g' : FlowGraph} (h : Built b g)
    (hrun : Command.script cs b g = some (b', g')) : Built b' g' := by
  induction cs generalizing b g with
  | nil =>
    obtain ⟨rfl, rfl⟩ : b = b' ∧ g = g' := by simpa [Command.script] using hrun
    exact h
  | cons c cs ih =>
    unfold Command.script at hrun
    split at hrun
    case isTrue hc =>
      split at hrun
      case h_1 b₁ g₁ hstep => exact ih (h.step hc hstep) hrun
      case h_2 => cases hrun
    case isFalse => cases hrun

end Midend
