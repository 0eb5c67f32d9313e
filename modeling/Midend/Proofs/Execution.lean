import Midend.Constants.Knowledge
import Midend.Proofs.Consistency
import Midend.Proofs.Graph.Nodes
import Midend.Proofs.Ssa.Walk

/-! # Executions

An execution of a graph in SSA form goes from block to block and keeps the latest value of every definition. The phis
of a block take their inputs on the way into it, all at once. What the other instructions do to values and to memory
is left open, so that each analysis can say what it relies on.
-/

namespace Midend

open Midend.Flow

/-- What a definition evaluates to: a constant, or an object that has an identity and a class. -/
inductive Value where
  | constant (c : Constant)
  | object (identity : Nat) (cls : ClassId)
deriving Inhabited

namespace Value

def classId : Value → ClassId
  | constant c => c.classId
  | object _ cls => cls

def smi? : Value → Option Int
  | constant c => c.smi?
  | object .. => none

def int? : Value → Option Int
  | constant c => c.int?
  | object .. => none

def smi (v : Int) : Value := constant (.smi v)

def bool (b : Bool) : Value := constant (.bool b)

def isNull : Value → Bool
  | constant c => c.isNull
  | object .. => false

/-- The value is of the class. Null is the only value of its own. -/
def isOf (v : Value) (cls : ClassId) : Bool := v.classId == cls && (cls != .null || v.isNull)

def same : Value → Value → Bool
  | constant a, constant b => a == b
  | object a _, object b _ => a == b
  | _, _ => false

end Value

namespace Execution

open Ssa

/-- What every definition gave when it was last evaluated. Instructions that produce no value have none. -/
abbrev Values := InstId → Option Value

/-- A point in an execution: the block it is in, the instructions of the block that are still to come, and what has
been computed. -/
structure State (M : Type) where
  block : BlockId
  rest : List InstId
  values : Values
  memory : M

structure Meaning (M : Type) where
  /-- The instruction may turn one memory into another, and give the value if it produces one. -/
  does : Values → M → InstId → Inst → Option Value → M → Prop
  /-- The terminator may go to the block. -/
  goes : Values → InstId → Inst → BlockId → Prop

/-- The predecessors of a block, in the order of the inputs of its phis. -/
def predsOf (g : FlowGraph) (b : BlockId) : List BlockId := ((g.blocks[b.index]?).map Block.preds).getD []

def LivePhi (g : FlowGraph) (b : BlockId) (d : InstId) : Prop := d ∈ phisOf g b ∧ aliveIn g d = true

instance {g : FlowGraph} {b : BlockId} {d : InstId} : Decidable (LivePhi g b d) := inferInstanceAs (Decidable (_ ∧ _))

/-- On the edge from `b` to `c`, each live phi of `c` takes the value of its input. -/
def Crosses (g : FlowGraph) (b c : BlockId) (σ σ' : Values) : Prop :=
  ∃ k, (predsOf g c)[k]? = some b ∧ ∀ d,
    (LivePhi g c d → ∃ a v, inputOf g d k = some a ∧ σ a = some v ∧ σ' d = some v) ∧ (¬ LivePhi g c d → σ' d = σ d)

variable {M : Type}

/-- One instruction is executed, once its inputs have values. -/
inductive Step (g : FlowGraph) (m : Meaning M) : State M → State M → Prop
  | define {b : BlockId} {i : InstId} {rest : List InstId} {σ : Values} {μ μ' : M} {n : Node} {v : Value}
      (hn : g.nodes[i.index]? = some n) (hdef : n.inst.isDefinition = true)
      (hargs : ∀ a ∈ n.inst.args, (σ a).isSome = true) (hdoes : m.does σ μ i n.inst (some v) μ') :
      Step g m ⟨b, i :: rest, σ, μ⟩ ⟨b, rest, Function.update σ i (some v), μ'⟩
  | pass {b : BlockId} {i : InstId} {rest : List InstId} {σ : Values} {μ μ' : M} {n : Node}
      (hn : g.nodes[i.index]? = some n) (hdef : n.inst.isDefinition = false) (hterm : n.inst.isTerminator = false)
      (hargs : ∀ a ∈ n.inst.args, (σ a).isSome = true) (hdoes : m.does σ μ i n.inst none μ') :
      Step g m ⟨b, i :: rest, σ, μ⟩ ⟨b, rest, σ, μ'⟩
  | jump {b c : BlockId} {i : InstId} {rest : List InstId} {σ σ' : Values} {μ μ' : M} {n : Node}
      (hn : g.nodes[i.index]? = some n) (hterm : n.inst.isTerminator = true) (hc : c ∈ n.inst.successors)
      (hargs : ∀ a ∈ n.inst.args, (σ a).isSome = true) (hdoes : m.does σ μ i n.inst none μ') (hgoes :
      m.goes σ i n.inst c) (hcross : Crosses g b c σ σ') :
      Step g m ⟨b, i :: rest, σ, μ⟩ ⟨c, g.insts c, σ', μ'⟩
  | begin {c : BlockId} {σ σ' : Values} {μ : M} (hc : g.Edge FlowGraph.graphEntry c)
      (hcross : Crosses g FlowGraph.graphEntry c σ σ') :
      Step g m ⟨FlowGraph.graphEntry, [], σ, μ⟩ ⟨c, g.insts c, σ', μ⟩

/-- At the graph entry there are the constants and the parameters, which may be anything. -/
structure Start (g : FlowGraph) (s : State M) : Prop where
  block : s.block = FlowGraph.graphEntry
  rest : s.rest = []
  initial : ∀ d ∈ g.initialDefinitions, ∃ n v, g.nodes[d.index]? = some n ∧ s.values d = some v ∧
    ∀ c, n.inst = .constant c → v = .constant c
  others : ∀ d ∉ g.initialDefinitions, s.values d = none

def Reaches (g : FlowGraph) (m : Meaning M) (s : State M) : Prop :=
  ∃ s₀, Start g s₀ ∧ Relation.ReflTransGen (Step g m) s₀ s

/-- What holds at the start and survives every step that an execution makes holds wherever executions come. -/
theorem Reaches.induction {g : FlowGraph} {m : Meaning M} {s : State M} (motive : State M → Prop)
    (hstart : ∀ s, Start g s → motive s)
    (hstep : ∀ s s', Reaches g m s → motive s → Step g m s s' → motive s') (h : Reaches g m s) : motive s := by
  obtain ⟨s₀, hs₀, hsteps⟩ := h
  induction hsteps with
  | refl => exact hstart s₀ hs₀
  | tail hsteps hlast ih => exact hstep _ _ ⟨s₀, hs₀, hsteps⟩ ih hlast

/-! ## Recorded classes -/

/-- The values that flow into the instruction have the classes recorded for them. -/
def ClassesRight (g : FlowGraph) (σ : Values) (i : InstId) (d : Inst) : Prop :=
  ∀ k cls a v, g.useClass i k = .ok cls → cls ≠ .dynamic → cls ≠ .illegal → d.args[k]? = some a → σ a = some v →
    v.isOf cls = true

/-! ## Small integers and comparisons -/

/-- The result of an operation on small integers, unless it throws. It may be no small integer any more. -/
def exactResult (op : Token) (l r : Int) : Option Int :=
  match op with
  | .add => some (l + r)
  | .sub => some (l - r)
  | .mul => some (l * r)
  | .truncDiv => if r = 0 then none else some (l.tdiv r)
  | .mod => if r = 0 then none else some (l % r)
  | .shl => if 0 ≤ r then some (l * 2 ^ r.toNat) else none
  | .shr => if 0 ≤ r then some (l / 2 ^ r.toNat) else none
  | .bitAnd => some (Word.and l r)
  | .bitOr => some (Word.or l r)
  | .bitXor => some (Word.xor l r)
  | _ => none

/-- How a comparison may turn out. Identity is decided by the operands, and so is everything else of integers. -/
def Outcome (c : Comparison) (σ : Values) (outcome : Bool) : Prop :=
  ∀ l r, σ c.left = some l → σ c.right = some r →
    if c.kind = .strict then outcome = (l.same r != (c.op == .neStrict))
    else ∀ x y answer, l.int? = some x → r.int? = some y → compareInts c.op x y = some answer → outcome = answer

/-! ## Memory -/

/-- The fields of objects, by offset, and the elements of arrays. -/
structure Memory where
  field : Value → Nat → Value
  element : Value → Value → Value

/-- The field gets the value, and nothing else changes. -/
structure Memory.WritesField (μ : Memory) (object : Value) (offset : Nat) (v : Value) (μ' : Memory) : Prop where
  written : μ'.field object offset = v
  fields : ∀ o k, ¬ (o = object ∧ k = offset) → μ'.field o k = μ.field o k
  elements : μ'.element = μ.element

/-! ## Graphs in SSA form -/

/-- A graph as construction leaves it. Its blocks are discovered, and nothing leads back to the entry. Only joins have
phis, and only gotos lead to joins. -/
structure SsaForm (g : FlowGraph) : Prop where
  consistent : g.Consistent
  layout : g.layout.Sound
  discovered : ∀ b, g.Reachable b → b ∈ g.reversePostorder
  entry : ∀ b, g.Reachable b → ¬ g.Edge b FlowGraph.graphEntry
  initial : ∀ d ∈ g.initialDefinitions, ∃ n, g.nodes[d.index]? = some n ∧ n.inst.isGiven = true
  phis : ∀ b, ∀ phi ∈ phisOf g b, ∃ n, g.nodes[phi.index]? = some n ∧ n.inst.isPhi = true ∧ n.block = some b
  joins : ∀ (b : BlockId) k, g.blocks[b.index]? = some k → k.phis ≠ [] → k.kind = .join
  gotos : ∀ (b c : BlockId) (i : InstId) n k, g.Reachable b → g.lastInst b = some i → g.nodes[i.index]? = some n →
    c ∈ n.inst.successors → g.blocks[c.index]? = some k → k.kind = .join → n.inst = .goto c

theorem mem_livePhis_iff {g : FlowGraph} {b : BlockId} {phi : InstId} {ps : List InstId} (h : g.livePhis b = .ok ps) :
    phi ∈ ps ↔ LivePhi g b phi := by
  obtain ⟨all, hall, hread, rfl⟩ := FlowGraph.livePhis_eq_ok.mp h
  obtain ⟨k, hk, rfl⟩ := FlowGraph.phis_eq_ok.mp hall
  unfold LivePhi
  rw [phisOf_eq hk, List.mem_filter]
  refine and_congr_right fun hmem => ?_
  obtain ⟨a, ha⟩ := hread phi hmem
  obtain ⟨n, hn, hn'⟩ := FlowGraph.isAlivePhi_eq_ok.mp ha
  rw [aliveIn_eq hn, ha, hn']
  simp [Except.toOption]

namespace SsaForm

variable {g : FlowGraph} {b : BlockId} {i phi : InstId} {n : Node}

theorem block_holds (hform : SsaForm g) (hb : g.Reachable b) : g.BlockHolds b :=
  (FlowGraph.consistent_iff.mp hform.consistent).blocks b (hform.discovered b hb)

theorem inst_holds (hform : SsaForm g) (hb : g.Reachable b) (hne : b ≠ FlowGraph.graphEntry) (hi : i ∈ g.insts b)
    (hn : g.nodes[i.index]? = some n) : ∃ last, g.lastInst b = some last ∧ g.InstHolds b last i n := by
  obtain ⟨last, hlast, hall⟩ := (hform.block_holds hb).insts hne
  obtain ⟨m, hm, hholds⟩ := hall i hi
  obtain rfl := Option.some_inj.mp (hn.symm.trans hm)
  exact ⟨last, hlast, hholds⟩

theorem phi_holds (hform : SsaForm g) (hb : g.Reachable b) (hphi : LivePhi g b phi) :
    ∃ n, g.nodes[phi.index]? = some n ∧ n.inst.isPhi = true ∧ n.block = some b ∧ g.OperandsHold phi n := by
  obtain ⟨n, hn, hisPhi, hblock⟩ := hform.phis b phi hphi.1
  obtain ⟨ps, hps, hall⟩ := (hform.block_holds hb).phis
  obtain ⟨m, hm, hholds⟩ := (hall phi ((mem_livePhis_iff hps).mpr hphi)).operands
  obtain rfl := Option.some_inj.mp (hn.symm.trans hm)
  exact ⟨n, hn, hisPhi, hblock, hholds⟩

theorem succs_of_last (hne : b ≠ FlowGraph.graphEntry) (hlast : g.lastInst b = some i)
    (hn : g.nodes[i.index]? = some n) : g.succs b = .ok n.inst.successors := by
  unfold FlowGraph.succs
  rw [if_neg hne, hlast]
  dsimp only
  rw [FlowGraph.inst_eq_ok.mpr ⟨n, hn, rfl⟩]
  rfl

theorem edge_of_mem (hform : SsaForm g) (hb : g.Reachable b) (hne : b ≠ FlowGraph.graphEntry) (hi : i ∈ g.insts b)
    (hn : g.nodes[i.index]? = some n) (hterm : n.inst.isTerminator = true) {c : BlockId} (hc : c ∈ n.inst.successors) :
    g.Edge b c := by
  obtain ⟨last, hlast, hholds⟩ := hform.inst_holds hb hne hi hn
  obtain rfl := hholds.terminates.mp hterm
  unfold FlowGraph.Edge
  rwa [FlowGraph.next_of_ok (succs_of_last hne hlast hn)]

/-- A block that leads to phis ends in a goto. -/
theorem goto_of_edge (hform : SsaForm g) (hb : g.Reachable b) (hne : b ≠ FlowGraph.graphEntry) {c : BlockId}
    (hedge : g.Edge b c) (hphi : phi ∈ phisOf g c) :
    ∃ i n, i ∈ g.insts b ∧ g.nodes[i.index]? = some n ∧ n.inst = .goto c := by
  obtain ⟨last, hlast, hall⟩ := (hform.block_holds hb).insts hne
  have hmem : last ∈ g.insts b := List.mem_of_getLast? hlast
  obtain ⟨n, hn, -⟩ := hall last hmem
  obtain ⟨k, hk, hphi⟩ := exists_of_mem_phisOf hphi
  have hjoin := hform.joins c k hk (List.ne_nil_of_mem hphi)
  unfold FlowGraph.Edge at hedge
  rw [FlowGraph.next_of_ok (succs_of_last hne hlast hn)] at hedge
  exact ⟨last, n, hmem, hn, hform.gotos b c last n k hb hlast hn hedge hk hjoin⟩

end SsaForm

end Execution

end Midend
