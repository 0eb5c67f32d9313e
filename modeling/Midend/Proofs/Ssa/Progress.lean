import Midend.Proofs.Graph.Names
import Midend.Proofs.Ssa.Phis
import Midend.Ssa.Renaming

/-! # Renaming under way

What renaming leaves alone. Instructions it has not come to are as they were built, those it has finished stay
as they are, and only loads and stores of locals lose their place.
-/

namespace Midend

open Midend.Flow

def Inst.isLocal (d : Inst) : Bool := d.opcode == .loadLocal || d.opcode == .storeLocal

theorem Inst.isLocal_of_isTerminator {d : Inst} (h : d.isTerminator = true) : d.isLocal = false := by
  unfold Inst.isTerminator at h
  unfold Inst.isLocal
  cases hop : d.opcode <;> simp_all [Opcode.isTerminator]

theorem Inst.isPhi_of_fits {d : Inst} (hfits : d.fits = true) (hop : d.opcode = .phi) : d.isPhi = true := by
  cases d with
  | compare c =>
    have hop : c.opcode = .phi := hop
    unfold Comparison.opcode at hop
    split at hop <;> cases hop
  | _ => simp_all [Inst.fits, Inst.opcode, Inst.isPhi, Opcode.isUnary, Opcode.isBinaryOp, Opcode.isUnaryOp]

/-- The instruction has had inputs exchanged, and may have come to life. -/
structure Node.Evolves (n n' : Node) : Prop where
  inst : ∃ f, n'.inst = n.inst.mapArgs f ∨ n'.inst = (n.inst.mapArgs f).revive
  isUsed : n'.isUsed = n.isUsed
  deoptId : n'.deoptId = n.deoptId
  inputUses : n'.inputUses = n.inputUses
  envUses : n'.envUses = n.envUses

namespace Node.Evolves

variable {n n' n'' : Node}

theorem refl (n : Node) : n.Evolves n := ⟨⟨fun _ a => a, .inl (by simp)⟩, rfl, rfl, rfl, rfl⟩

theorem trans (h : n.Evolves n') (h' : n'.Evolves n'') : n.Evolves n'' := by
  refine ⟨?_, h'.isUsed.trans h.isUsed, h'.deoptId.trans h.deoptId, h'.inputUses.trans h.inputUses,
    h'.envUses.trans h.envUses⟩
  obtain ⟨f, hf⟩ := h.inst
  obtain ⟨f', hf'⟩ := h'.inst
  refine ⟨fun k a => f' k (f k a), ?_⟩
  rcases hf with hf | hf <;> rcases hf' with hf' | hf' <;> rw [hf', hf] <;>
    simp [← Inst.revive_mapArgs]

theorem opcode (h : n.Evolves n') : n'.inst.opcode = n.inst.opcode := by
  obtain ⟨f, hf | hf⟩ := h.inst <;> simp [hf]

theorem isPhi (h : n.Evolves n') : n'.inst.isPhi = n.inst.isPhi := by
  obtain ⟨f, hf | hf⟩ := h.inst <;> simp [hf]

theorem length_args (h : n.Evolves n') : n'.inst.args.length = n.inst.args.length := by
  obtain ⟨f, hf | hf⟩ := h.inst <;> simp [hf]

theorem inst_of_not_isPhi (h : n.Evolves n') (hn : n.inst.isPhi = false) : ∃ f, n'.inst = n.inst.mapArgs f := by
  obtain ⟨f, hf | hf⟩ := h.inst
  · exact ⟨f, hf⟩
  · exact ⟨f, by rw [hf, Inst.revive_of_not_isPhi (by simpa using hn)]⟩

theorem phi (h : n.Evolves n') {slot : Option Nat} {as : List InstId} {alive : Bool} {rep : Representation}
    (hn : n.inst = .phi slot as alive rep) : ∃ as' alive', n'.inst = .phi slot as' alive' rep := by
  obtain ⟨f, hf | hf⟩ := h.inst
  · exact ⟨as.mapIdx f, alive, by rw [hf, hn]; rfl⟩
  · exact ⟨as.mapIdx f, true, by rw [hf, hn]; rfl⟩

end Node.Evolves

namespace Ssa

/-! ## The graph that renaming starts from -/

/-- The graph `g₀` is the raw graph `r` with its blocks ordered, the dominator tree recorded, phis placed and
the initial definitions made. -/
structure Base (r : FlowGraph) (t : Tour) (g₀ : FlowGraph) : Prop where
  raw : Raw r
  catchEntries : r.catchEntries = []
  touring : Touring r t []
  split : ∀ b ∈ t.preorder, b ≠ FlowGraph.graphEntry → SplitAt r t b
  layout : g₀.layout = r.layout
  counts : g₀.parameterCount = r.parameterCount ∧ g₀.localCount = r.localCount
  noCatch : g₀.catchEntries = []
  preorder : g₀.preorder = t.preorder
  postorder : g₀.postorder = t.postorder
  size : g₀.blocks.size = r.blocks.size
  kind : ∀ (b : BlockId) (k : Block), g₀.blocks[b.index]? = some k → (t.blocks[b.index]?).map Block.kind = some k.kind
  block : ∀ (b : BlockId) (k : Block), g₀.blocks[b.index]? = some k → b ∈ t.preorder →
    k.preds = t.preds b ∧ k.dominator = t.idom? b ∧ k.dominated = t.children b
  old : ∀ (i : InstId) (n : Node), r.nodes[i.index]? = some n → g₀.nodes[i.index]? = some n
  phi : ∀ (b : BlockId) (k : Block), g₀.blocks[b.index]? = some k → ∀ i ∈ k.phis, r.nodes.size ≤ i.index ∧
    b ∈ t.preorder ∧ (t.blocks[b.index]?).map Block.kind = some .join ∧
    ∃ v < r.parameterCount + r.localCount, g₀.nodes[i.index]? = some (phiNode t b v)
  phis_nodup : ∀ (b : BlockId) (k : Block), g₀.blocks[b.index]? = some k → k.phis.Nodup
  initial : ∀ d ∈ g₀.initialDefinitions, r.nodes.size ≤ d.index ∧ ∃ n, g₀.nodes[d.index]? = some n ∧
    n.block = some FlowGraph.graphEntry ∧ n.inst.args = [] ∧ n.inst.isPhi = false ∧
    n.inst.isLocal = false ∧ n.inputUses = [] ∧ n.envUses = [] ∧ n.inst.isGiven = true
  all : ∀ (i : InstId) (n : Node), g₀.nodes[i.index]? = some n → i.index < r.nodes.size ∨
    (∃ (b : BlockId) (k : Block), g₀.blocks[b.index]? = some k ∧ i ∈ k.phis) ∨ i ∈ g₀.initialDefinitions
  numbered : g₀.Numbered
  indexed : ∀ d ∈ g₀.initialDefinitions, g₀.Indexed d

namespace Base

variable {r g₀ : FlowGraph} {t : Tour} (h : Base r t g₀)

include h

theorem exists_block {b : BlockId} (hb : b ∈ t.preorder) : ∃ k, g₀.blocks[b.index]? = some k :=
  ⟨_, Array.getElem?_eq_getElem (by rw [h.size]; exact h.touring.inRange b hb)⟩

theorem variableCount : g₀.variableCount = .ok (r.parameterCount + r.localCount) := by
  unfold FlowGraph.variableCount
  rw [h.counts.1, h.counts.2]
  exact if_pos (Nat.lt_trans h.raw.slots (by decide))

theorem isPhi_of_mem_phis {b : BlockId} {k : Block} {i : InstId} {n : Node} (hk : g₀.blocks[b.index]? = some k)
    (hi : i ∈ k.phis) (hn : g₀.nodes[i.index]? = some n) : n.inst.isPhi = true := by
  obtain ⟨-, -, -, v, -, hv⟩ := h.phi b k hk i hi
  obtain rfl : phiNode t b v = n := by simpa [hv] using hn
  rfl

theorem isPhi_of_raw {i : InstId} {n : Node} (hn : r.nodes[i.index]? = some n) : n.inst.isPhi = false := by
  have hfits := (h.raw.admits i n hn).fits
  cases hinst : n.inst with
  | phi => simp [hinst, Inst.fits] at hfits
  | _ => rfl

theorem isPhi_of_opcode {i : InstId} {n : Node} (hn : g₀.nodes[i.index]? = some n) (hop : n.inst.opcode = .phi) :
    n.inst.isPhi = true := by
  obtain hlt | ⟨b, k, hk, hi⟩ | hi := h.all i n hn
  · have hr : r.nodes[i.index]? = some r.nodes[i.index] := Array.getElem?_eq_getElem hlt
    obtain rfl : r.nodes[i.index] = n := by simpa [h.old i _ hr] using hn
    exact Inst.isPhi_of_fits (h.raw.admits i _ hr).fits hop
  · exact h.isPhi_of_mem_phis hk hi hn
  · obtain ⟨-, m, hm, -, hargs, -⟩ := h.initial i hi
    obtain rfl : m = n := by simpa [hm] using hn
    cases hinst : m.inst <;> simp [hinst, Inst.args, Inst.opcode, Inst.isPhi] at hargs hop ⊢

theorem unused {i : InstId} {n : Node} (hn : g₀.nodes[i.index]? = some n) : n.inputUses = [] ∧ n.envUses = [] := by
  obtain hlt | ⟨b, k, hk, hi⟩ | hi := h.all i n hn
  · have hr : r.nodes[i.index]? = some r.nodes[i.index] := Array.getElem?_eq_getElem hlt
    obtain rfl : r.nodes[i.index] = n := by simpa [h.old i _ hr] using hn
    exact (h.raw.fresh i _ hr).2
  · obtain ⟨-, -, -, v, -, hv⟩ := h.phi b k hk i hi
    obtain rfl : phiNode t b v = n := by simpa [hv] using hn
    exact ⟨rfl, rfl⟩
  · obtain ⟨-, m, hm, -, -, -, -, hin, henv, -⟩ := h.initial i hi
    obtain rfl : m = n := by simpa [hm] using hn
    exact ⟨hin, henv⟩

end Base

/-! ## What stays -/

/-- The two graphs differ in their instructions and their places at most. -/
structure SameOutline (g g' : FlowGraph) : Prop where
  blocks : g'.blocks = g.blocks
  preorder : g'.preorder = g.preorder
  postorder : g'.postorder = g.postorder
  parameterCount : g'.parameterCount = g.parameterCount
  localCount : g'.localCount = g.localCount
  initialDefinitions : g'.initialDefinitions = g.initialDefinitions
  catchEntries : g'.catchEntries = g.catchEntries

theorem SameOutline.refl (g : FlowGraph) : SameOutline g g := ⟨rfl, rfl, rfl, rfl, rfl, rfl, rfl⟩

theorem SameOutline.trans {g g' g'' : FlowGraph} (h : SameOutline g g') (h' : SameOutline g' g'') : SameOutline g g'' :=
  ⟨h'.blocks.trans h.blocks, h'.preorder.trans h.preorder, h'.postorder.trans h.postorder,
    h'.parameterCount.trans h.parameterCount, h'.localCount.trans h.localCount,
    h'.initialDefinitions.trans h.initialDefinitions, h'.catchEntries.trans h.catchEntries⟩

/-- Renaming has come from `g₀` to `g` and has changed no built instruction but those in `handled`. -/
structure Progress (r g₀ : FlowGraph) (handled : List InstId) (g : FlowGraph) : Prop where
  outline : SameOutline g₀ g
  size : g.nodes.size = g₀.nodes.size
  nodes : ∀ (i : InstId) (n : Node), g₀.nodes[i.index]? = some n → ∃ n', g.nodes[i.index]? = some n' ∧ n.Evolves n'
  untouched : ∀ (i : InstId) (n : Node), r.nodes[i.index]? = some n → i ∉ handled → g.nodes[i.index]? = some n
  block : ∀ (i : InstId) (n n' : Node), g₀.nodes[i.index]? = some n → g.nodes[i.index]? = some n' →
    n'.block = if i.index < r.nodes.size then g.layout.home? i else n.block
  env : ∀ (i : InstId) (n n' : Node), r.nodes.size ≤ i.index → g₀.nodes[i.index]? = some n →
    g.nodes[i.index]? = some n' → n'.env = n.env
  layout : g.layout.Sound
  sub : ∀ b, (g.insts b).Sublist (r.insts b)
  gone : ∀ (i : InstId) (n : Node), r.nodes[i.index]? = some n → g.layout.home? i = none →
    i ∈ handled ∧ n.inst.isLocal = true

/-- The graph with `x` taken out of `b`, where nothing has uses. -/
def unplaced (g : FlowGraph) (x : InstId) (b : BlockId) : FlowGraph :=
  (g.withNode x fun n => { n with block := none }).withLayout (g.layout.unplace x b)

namespace Progress

variable {r g₀ g : FlowGraph} {t : Tour} {H : List InstId} {i : InstId} {n : Node}

theorem exists_base (hp : Progress r g₀ H g) (hn : g.nodes[i.index]? = some n) :
    ∃ n₀, g₀.nodes[i.index]? = some n₀ ∧ n₀.Evolves n := by
  have hlt : i.index < g₀.nodes.size := hp.size ▸ (Array.getElem?_eq_some_iff.mp hn).1
  have hn₀ : g₀.nodes[i.index]? = some g₀.nodes[i.index] := Array.getElem?_eq_getElem hlt
  obtain ⟨n', hn', hev⟩ := hp.nodes i _ hn₀
  obtain rfl : n' = n := by simpa [hn'] using hn
  exact ⟨_, hn₀, hev⟩

theorem variableCount (h : Base r t g₀) (hp : Progress r g₀ H g) :
    g.variableCount = .ok (r.parameterCount + r.localCount) := by
  rw [← h.variableCount]
  unfold FlowGraph.variableCount
  rw [hp.outline.parameterCount, hp.outline.localCount]

theorem unused (h : Base r t g₀) (hp : Progress r g₀ H g) (hn : g.nodes[i.index]? = some n) :
    n.inputUses = [] ∧ n.envUses = [] := by
  obtain ⟨n₀, hn₀, hev⟩ := hp.exists_base hn
  obtain ⟨hin, henv⟩ := h.unused hn₀
  exact ⟨hev.inputUses.trans hin, hev.envUses.trans henv⟩

theorem start (h : Base r t g₀) : Progress r g₀ [] g₀ where
  outline := .refl g₀
  size := rfl
  nodes := fun i n hn => ⟨n, hn, .refl n⟩
  untouched := fun i n hn _ => h.old i n hn
  block := by
    intro i n n' hn hn'
    obtain rfl : n = n' := by simpa [hn] using hn'
    split
    case isTrue hlt =>
      have hr : r.nodes[i.index]? = some r.nodes[i.index] := Array.getElem?_eq_getElem hlt
      obtain rfl : r.nodes[i.index] = n := by simpa [h.old i _ hr] using hn
      obtain ⟨b, hb, hhome, -⟩ := h.raw.home i _ hr
      rw [hb, h.layout, hhome]
    case isFalse => rfl
  env := by
    intro i n n' _ hn hn'
    obtain rfl : n = n' := by simpa [hn] using hn'
    rfl
  layout := h.layout ▸ h.raw.layout
  sub := fun b => by rw [FlowGraph.insts, h.layout]; exact List.Sublist.refl _
  gone := by
    intro i n hn hnone
    obtain ⟨b, -, hhome, -⟩ := h.raw.home i n hn
    rw [h.layout, hhome] at hnone
    cases hnone

theorem mono {H' : List InstId} (hp : Progress r g₀ H g) (hsub : H ⊆ H') : Progress r g₀ H' g :=
  { hp with
    untouched := fun i n hn hi => hp.untouched i n hn fun hmem => hi (hsub hmem)
    gone := fun i n hn hnone => (hp.gone i n hn hnone).imp_left fun hmem => hsub hmem }

theorem withNode (hp : Progress r g₀ H g) {f : Node → Node} (hi : i ∈ H ∨ r.nodes.size ≤ i.index)
    (hf : ∀ n, g.nodes[i.index]? = some n →
      n.Evolves (f n) ∧ (f n).block = n.block ∧ (r.nodes.size ≤ i.index → (f n).env = n.env)) :
    Progress r g₀ H (g.withNode i f) where
  outline := hp.outline.trans ⟨rfl, rfl, rfl, rfl, rfl, rfl, rfl⟩
  size := by simpa using hp.size
  nodes := by
    intro j n hn
    obtain ⟨n', hn', hev⟩ := hp.nodes j n hn
    by_cases hj : j = i
    · subst hj
      exact ⟨f n', by rw [FlowGraph.nodes_withNode_self, hn']; rfl, hev.trans (hf n' hn').1⟩
    · exact ⟨n', by rw [FlowGraph.nodes_withNode_ne hj, hn'], hev⟩
  untouched := by
    intro j n hn hj
    have hne : j ≠ i := by
      rintro rfl
      have hlt := (Array.getElem?_eq_some_iff.mp hn).1
      exact hi.elim hj fun hle => absurd hlt (Nat.not_lt.mpr hle)
    rw [FlowGraph.nodes_withNode_ne hne, hp.untouched j n hn hj]
  block := by
    intro j n n' hn hn'
    rw [FlowGraph.nodes_withNode] at hn'
    obtain ⟨m, hm, rfl⟩ := Option.map_eq_some_iff.mp hn'
    rw [FlowGraph.layout_withNode, ← hp.block j n m hn hm]
    split
    case isTrue hj => exact (hf m (hj ▸ hm)).2.1
    case isFalse => rfl
  env := by
    intro j n n' hj hn hn'
    rw [FlowGraph.nodes_withNode] at hn'
    obtain ⟨m, hm, rfl⟩ := Option.map_eq_some_iff.mp hn'
    rw [← hp.env j n m hj hn hm]
    split
    case isTrue heq =>
      subst heq
      exact (hf m hm).2.2 hj
    case isFalse => rfl
  layout := hp.layout
  sub := hp.sub
  gone := hp.gone

theorem numbered (hp : Progress r g₀ H g) (hi : i ∈ H ∨ r.nodes.size ≤ i.index) :
    Progress r g₀ H (g.numbered i) := by
  have h := hp.withNode (f := fun n => { n with ssaIndex := some g.nextSsaIndex }) hi fun n _ =>
    ⟨⟨⟨fun _ a => a, .inl (by simp)⟩, rfl, rfl, rfl, rfl⟩, rfl, fun _ => rfl⟩
  exact ⟨h.outline.trans ⟨rfl, rfl, rfl, rfl, rfl, rfl, rfl⟩, h.size, h.nodes, h.untouched, h.block, h.env, h.layout,
    h.sub, h.gone⟩

theorem unplaced {b : BlockId} (hp : Progress r g₀ H g) (hb : g.layout.home? i = some b) (hi : i ∈ H)
    (hn : r.nodes[i.index]? = some n) (hlocal : n.inst.isLocal = true) : Progress r g₀ H (unplaced g i b) where
  outline := hp.outline.trans ⟨rfl, rfl, rfl, rfl, rfl, rfl, rfl⟩
  size := by simpa [Ssa.unplaced] using hp.size
  nodes := by
    intro j m hm
    obtain ⟨m', hm', hev⟩ := hp.nodes j m hm
    simp only [Ssa.unplaced, FlowGraph.nodes_withLayout, FlowGraph.nodes_withNode, hm', Option.map_some]
    refine ⟨_, rfl, ?_⟩
    split
    · exact ⟨hev.inst, hev.isUsed, hev.deoptId, hev.inputUses, hev.envUses⟩
    · exact hev
  untouched := by
    intro j m hm hj
    have hne : j ≠ i := fun h => hj (h ▸ hi)
    simp only [Ssa.unplaced, FlowGraph.nodes_withLayout, FlowGraph.nodes_withNode_ne hne]
    exact hp.untouched j m hm hj
  block := by
    intro j m m' hm hm'
    simp only [Ssa.unplaced, FlowGraph.nodes_withLayout, FlowGraph.nodes_withNode] at hm'
    obtain ⟨m₁, hm₁, rfl⟩ := Option.map_eq_some_iff.mp hm'
    have hlt : i.index < r.nodes.size := (Array.getElem?_eq_some_iff.mp hn).1
    simp only [Ssa.unplaced, FlowGraph.layout_withLayout, Layout.home?_unplace]
    by_cases hj : j = i
    · subst hj
      simp [hlt]
    · simp only [hj, if_false]
      exact hp.block j m m₁ hm hm₁
  env := by
    intro j m m' hj hm hm'
    simp only [Ssa.unplaced, FlowGraph.nodes_withLayout, FlowGraph.nodes_withNode] at hm'
    obtain ⟨m₁, hm₁, rfl⟩ := Option.map_eq_some_iff.mp hm'
    rw [← hp.env j m m₁ hj hm hm₁]
    split <;> rfl
  layout := hp.layout.unplace hb
  sub := by
    intro c
    show (Layout.insts (g.layout.unplace i b) c).Sublist _
    rw [Layout.insts_unplace]
    split
    case isTrue hc =>
      subst hc
      exact List.erase_sublist.trans (hp.sub c)
    case isFalse => exact hp.sub c
  gone := by
    intro j m hm hnone
    simp only [Ssa.unplaced, FlowGraph.layout_withLayout, Layout.home?_unplace] at hnone
    by_cases hj : j = i
    · subst hj
      obtain rfl : n = m := by simpa [hn] using hm
      exact ⟨hi, hlocal⟩
    · rw [if_neg hj] at hnone
      exact hp.gone j m hm hnone

end Progress

/-- Taking out an instruction where nothing has uses only takes its place. -/
theorem leads_remove {r g₀ g : FlowGraph} {t : Tour} {H : List InstId} {x : InstId} (h : Base r t g₀)
    (hp : Progress r g₀ H g) (hx : x.index < r.nodes.size) (hplaced : g.isPlaced x = true) :
    Leads False g (Edit.remove x) fun _ g' => ∃ b, g.layout.home? x = some b ∧ g' = unplaced g x b := by
  obtain ⟨n, hn, -⟩ := hp.nodes x _ (h.old x _ (Array.getElem?_eq_getElem hx))
  obtain ⟨hin, henv⟩ := hp.unused h hn
  refine (Leads.remove hn fun _ => ⟨hin, henv, hplaced⟩).mono ?_
  rintro _ _ ⟨-, -, b, hb, rfl⟩
  refine ⟨b, hb, ?_⟩
  have hsame : (g.mapNodes fun j m => m.dropUses (Edit.usesBy x n.inst.args) (Edit.usesBy x n.envValues) j) = g := by
    refine (FlowGraph.mapNodes_congr fun j m hm => ?_).trans FlowGraph.mapNodes_id
    obtain ⟨hin, henv⟩ := hp.unused h hm
    cases m
    simp only at hin henv
    subst hin henv
    rfl
  unfold FlowGraph.removed unplaced
  rw [hsame]

def aliveIn (g : FlowGraph) (i : InstId) : Bool := ((g.nodes[i.index]?).map fun n => n.inst.isAlivePhi).getD false

theorem aliveIn_iff {g : FlowGraph} {i : InstId} :
    aliveIn g i = true ↔ ∃ n, g.nodes[i.index]? = some n ∧ n.inst.isAlivePhi = true := by
  unfold aliveIn
  cases g.nodes[i.index]? <;> simp

theorem aliveIn_eq {g : FlowGraph} {i : InstId} {n : Node} (hn : g.nodes[i.index]? = some n) :
    aliveIn g i = n.inst.isAlivePhi := by
  simp [aliveIn, hn]

theorem aliveIn_withNode {g : FlowGraph} {i : InstId} {f : Node → Node}
    (hf : ∀ n, g.nodes[i.index]? = some n → (f n).inst.isAlivePhi = n.inst.isAlivePhi) (j : InstId) :
    aliveIn (g.withNode i f) j = aliveIn g j := by
  unfold aliveIn
  rw [FlowGraph.nodes_withNode]
  cases hn : g.nodes[j.index]? with
  | none => rfl
  | some n =>
    by_cases hj : j = i
    · subst hj
      simp [hf n hn]
    · simp [hj]

theorem aliveIn_numbered (g : FlowGraph) (i j : InstId) : aliveIn (g.numbered i) j = aliveIn g j :=
  aliveIn_withNode (g := g) (i := i) (f := fun n => { n with ssaIndex := some g.nextSsaIndex }) (fun _ _ => rfl) j

theorem aliveIn_unplaced (g : FlowGraph) (x : InstId) (b : BlockId) (j : InstId) :
    aliveIn (unplaced g x b) j = aliveIn g j :=
  aliveIn_withNode (g := g) (i := x) (f := fun n => { n with block := none }) (fun _ _ => rfl) j

/-- From `s` and `g` on, what was found out stays, and so does every instruction of `H`. -/
structure Later (H : List InstId) (s : Names) (g : FlowGraph) (s' : Names) (g' : FlowGraph) : Prop where
  kept : ∀ i ∈ H, ∀ n : Node, g.nodes[i.index]? = some n →
    ∃ n', g'.nodes[i.index]? = some n' ∧ n'.inst = n.inst ∧ n'.env = n.env
  resolved : ∀ x v, s.resolved.lookup x = some v → s'.resolved.lookup x = some v
  gone : ∀ i, g.layout.home? i = none → g'.layout.home? i = none
  alive : ∀ i, aliveIn g i = true → aliveIn g' i = true
  names : g.KeepsNames g'

def SameInputs (g g' : FlowGraph) : Prop :=
  ∀ (i : InstId) (n : Node), g.nodes[i.index]? = some n → n.inst.isPhi = true →
    ∃ n', g'.nodes[i.index]? = some n' ∧ n'.inst.isPhi = true ∧ n'.inst.args = n.inst.args

theorem SameInputs.refl (g : FlowGraph) : SameInputs g g := fun _ n hn hphi => ⟨n, hn, hphi, rfl⟩

theorem SameInputs.trans {g g' g'' : FlowGraph} (h : SameInputs g g') (h' : SameInputs g' g'') : SameInputs g g'' := by
  intro i n hn hphi
  obtain ⟨n', hn', hphi', hargs⟩ := h i n hn hphi
  obtain ⟨n'', hn'', hphi'', hargs'⟩ := h' i n' hn' hphi'
  exact ⟨n'', hn'', hphi'', hargs'.trans hargs⟩

theorem SameInputs.withNode {g : FlowGraph} {i : InstId} {f : Node → Node}
    (hf : ∀ n, g.nodes[i.index]? = some n → n.inst.isPhi = true →
      (f n).inst.isPhi = true ∧ (f n).inst.args = n.inst.args) : SameInputs g (g.withNode i f) := by
  intro j n hn hphi
  by_cases hj : j = i
  · subst hj
    obtain ⟨hphi', hargs⟩ := hf n hn hphi
    exact ⟨f n, by rw [FlowGraph.nodes_withNode_self, hn]; rfl, hphi', hargs⟩
  · exact ⟨n, by rw [FlowGraph.nodes_withNode_ne hj, hn], hphi, rfl⟩

theorem SameInputs.numbered {g : FlowGraph} {i : InstId} : SameInputs g (g.numbered i) :=
  SameInputs.withNode (g := g) (i := i) (f := fun n => { n with ssaIndex := some g.nextSsaIndex })
    fun _ _ hphi => ⟨hphi, rfl⟩

theorem SameInputs.unplaced {g : FlowGraph} {x : InstId} {b : BlockId} : SameInputs g (unplaced g x b) :=
  SameInputs.withNode fun _ _ hphi => ⟨hphi, rfl⟩

namespace Later

variable {H : List InstId} {s s' s'' : Names} {g g' g'' : FlowGraph} {i : InstId}

theorem refl (H : List InstId) (s : Names) (g : FlowGraph) : Later H s g s g :=
  ⟨fun _ _ n hn => ⟨n, hn, rfl, rfl⟩, fun _ _ h => h, fun _ h => h, fun _ h => h, .refl g⟩

theorem trans (h : Later H s g s' g') (h' : Later H s' g' s'' g'') : Later H s g s'' g'' where
  kept := by
    intro i hi n hn
    obtain ⟨n', hn', hinst, henv⟩ := h.kept i hi n hn
    obtain ⟨n'', hn'', hinst', henv'⟩ := h'.kept i hi n' hn'
    exact ⟨n'', hn'', hinst'.trans hinst, henv'.trans henv⟩
  resolved := fun x v hx => h'.resolved x v (h.resolved x v hx)
  gone := fun i hi => h'.gone i (h.gone i hi)
  alive := fun i hi => h'.alive i (h.alive i hi)
  names := h.names.trans h'.names

theorem anti {H' : List InstId} (h : Later H s g s' g') (hsub : H' ⊆ H) : Later H' s g s' g' :=
  { h with kept := fun i hi => h.kept i (hsub hi) }

theorem withNode {f : Node → Node} (hi : i ∉ H) (hf : ∀ j, aliveIn g j = true → aliveIn (g.withNode i f) j = true)
    (hnames : ∀ n, (f n).ssaIndex = n.ssaIndex) : Later H s g s (g.withNode i f) where
  kept := by
    intro j hj n hn
    have hne : j ≠ i := fun h => hi (h ▸ hj)
    exact ⟨n, by rw [FlowGraph.nodes_withNode_ne hne, hn], rfl, rfl⟩
  resolved := fun _ _ h => h
  gone := fun _ h => h
  alive := hf
  names := .withNode hnames

theorem of_names (g : FlowGraph) (h : ∀ x v, s.resolved.lookup x = some v → s'.resolved.lookup x = some v) :
    Later H s g s' g :=
  ⟨fun _ _ n hn => ⟨n, hn, rfl, rfl⟩, h, fun _ h => h, fun _ h => h, .refl g⟩

theorem numbered (s : Names) (g : FlowGraph) (i : InstId) : Later H s g s (g.numbered i) where
  kept := by
    intro j _ n hn
    refine ⟨_, (FlowGraph.nodes_withNode i j _).trans (by rw [hn]; rfl), ?_, ?_⟩ <;> split <;> rfl
  resolved := fun _ _ h => h
  gone := fun _ h => h
  alive := fun j hj => (aliveIn_numbered g i j).trans hj
  names := .next g i

theorem unplaced (s : Names) (g : FlowGraph) (x : InstId) (b : BlockId) : Later H s g s (unplaced g x b) where
  kept := by
    intro j _ n hn
    refine ⟨_, (FlowGraph.nodes_withNode x j _).trans (by rw [hn]; rfl), ?_, ?_⟩ <;> split <;> rfl
  resolved := fun _ _ h => h
  gone := by
    intro j hj
    show (g.layout.unplace x b).home? j = none
    rw [Layout.home?_unplace, hj, ite_self]
  alive := fun j hj => (aliveIn_unplaced g x b j).trans hj
  names := by
    refine .changes (.mapNodes (f := fun j n => if j = x then { n with block := none } else n) rfl fun j n => ?_) rfl
    split <;> rfl

end Later

end Ssa

end Midend
