import Midend.Proofs.Flow.Order
import Midend.Proofs.Graph.Initial
import Midend.Proofs.Graph.Nodes
import Midend.Proofs.Graph.Uses

/-! # Edits that leave the code alone

Most edits of a graph rename inputs and keep books: the instructions stay where they are, and what they do with their
inputs stays what it was.
-/

namespace Midend

namespace Inst

variable {d e : Inst} {f : Nat → InstId → InstId}

def bare : Inst → Inst
  | phi slot _ alive representation => phi slot [] alive representation
  | d => d.mapArgs fun _ _ => .unset

@[simp] theorem bare_mapArgs : (d.mapArgs f).bare = d.bare := by
  cases d <;> simp [bare, mapArgs, Function.comp_def]

theorem opcode_bare : d.bare.opcode = d.opcode := by cases d <;> rfl

theorem arguments_bare : d.bare.arguments = d.arguments := by cases d <;> rfl

theorem successors_bare : d.bare.successors = d.successors := by cases d <;> rfl

end Inst

namespace FlowGraph

variable {g g' g'' : FlowGraph} {i j : InstId} {b : BlockId}

def codeOf (g : FlowGraph) (i : InstId) : Option Inst := (g.nodes[i.index]?).map (·.inst.bare)

theorem codeOf_eq {n : Node} (hn : g.nodes[i.index]? = some n) : g.codeOf i = some n.inst.bare := by
  rw [codeOf, hn, Option.map_some]

/-- Every instruction is where it was and does what it did. -/
structure SameCode (g g' : FlowGraph) : Prop where
  layout : g'.layout = g.layout
  catchEntries : g'.catchEntries = g.catchEntries
  postorder : g'.postorder = g.postorder
  code : ∀ i, g'.codeOf i = g.codeOf i

namespace SameCode

theorem refl (g : FlowGraph) : SameCode g g := ⟨rfl, rfl, rfl, fun _ => rfl⟩

theorem trans (h : SameCode g g') (h' : SameCode g' g'') : SameCode g g'' :=
  ⟨h'.layout.trans h.layout, h'.catchEntries.trans h.catchEntries, h'.postorder.trans h.postorder,
    fun i => (h'.code i).trans (h.code i)⟩

theorem mapNodes {f : InstId → Node → Node} (hf : ∀ i n, (f i n).inst.bare = n.inst.bare) :
    SameCode g (g.mapNodes f) := by
  refine ⟨rfl, rfl, rfl, fun i => ?_⟩
  unfold codeOf
  rw [nodes_mapNodes, Option.map_map]
  congr 1
  funext n
  exact hf i n

theorem withNode {f : Node → Node} (hf : ∀ n, (f n).inst.bare = n.inst.bare) : SameCode g (g.withNode i f) := by
  refine mapNodes fun j n => ?_
  split
  · exact hf n
  · rfl

theorem withLayout (h : SameCode g g') (l : Layout) : SameCode (g.withLayout l) (g'.withLayout l) :=
  ⟨rfl, h.catchEntries, h.postorder, h.code⟩

theorem succs_eq (h : SameCode g g') (b : BlockId) : g'.succs b = g.succs b := by
  unfold succs lastInst
  rw [h.layout, h.catchEntries]
  by_cases hb : b = graphEntry
  · simp [hb]
  rw [if_neg hb, if_neg hb]
  cases g.layout.last? b with
  | none => rfl
  | some i =>
    have hcode := h.code i
    unfold codeOf at hcode
    unfold inst node
    cases hn : g.nodes[i.index]? with
    | none =>
      rw [hn, Option.map_none, Option.map_eq_none_iff] at hcode
      simp only [hcode, hn]
    | some n =>
      rw [hn, Option.map_some, Option.map_eq_some_iff] at hcode
      obtain ⟨m, hm, hbare⟩ := hcode
      have hsuccs : m.inst.successors = n.inst.successors := by
        rw [← Inst.successors_bare, hbare, Inst.successors_bare]
      simp only [hm, hn]
      show Except.ok m.inst.successors = Except.ok n.inst.successors
      rw [hsuccs]

theorem next_eq (h : SameCode g g') (b : BlockId) : g'.next b = g.next b := by
  unfold next
  rw [h.succs_eq]

theorem edge_iff (h : SameCode g g') {b c : BlockId} : g'.Edge b c ↔ g.Edge b c := by
  unfold Edge
  rw [h.next_eq]

end SameCode

end FlowGraph

/-! ## Edits of the books -/

/-- A relation between graphs that does not look at what the graph keeps of an instruction besides its code: its uses,
its block, its environment and its index. -/
structure Frame (R : FlowGraph → FlowGraph → Prop) : Prop where
  refl : ∀ g, R g g
  trans : ∀ {g g' g''}, R g g' → R g' g'' → R g g''
  nodes : ∀ {g} {f : InstId → Node → Node}, (∀ i n, (f i n).inst = n.inst) → R g (g.mapNodes f)
  numbered : ∀ g i, R g (FlowGraph.numbered g i)

namespace Frame

variable {R : FlowGraph → FlowGraph → Prop} {g : FlowGraph} {i j : InstId}

theorem withNode (hR : Frame R) {f : Node → Node} (hf : ∀ n, (f n).inst = n.inst) : R g (g.withNode i f) := by
  refine hR.nodes fun j n => ?_
  split
  · exact hf n
  · rfl

theorem modifyNode (hR : Frame R) {f : Node → Node} (hf : ∀ n, (f n).inst = n.inst) :
    Leads True g (Edit.modifyNode i f) fun _ g' => R g g' := by
  rw [Leads.modifyNode_iff]
  exact ⟨fun _ => hR.withNode hf, fun _ => trivial⟩

theorem forM (hR : Frame R) {us : List (InstId × Use)} {f : InstId × Use → Node → Node}
    (hf : ∀ u n, (f u n).inst = n.inst) :
    Leads True g (us.forM fun u => Edit.modifyNode? u.1 (f u)) fun _ g' => R g g' := by
  refine Leads.forM_of_forall (R g) (hR.refl g) fun u _ g₁ h => ?_
  rw [Leads.modifyNode?_iff]
  exact hR.trans h (hR.withNode (hf u))

theorem addInputUses (hR : Frame R) : Leads True g (Edit.addInputUses i) fun _ g' => R g g' := by
  unfold Edit.addInputUses
  rw [Leads.bind_iff, Leads.get_iff, Leads.bind_iff, Leads.lift_iff]
  refine Yields.of_ok fun as _ => hR.forM ?_
  exact fun _ _ => rfl

theorem dropInputUses (hR : Frame R) : Leads True g (Edit.dropInputUses i) fun _ g' => R g g' := by
  unfold Edit.dropInputUses
  rw [Leads.bind_iff, Leads.get_iff, Leads.bind_iff, Leads.lift_iff]
  refine Yields.of_ok fun as _ => hR.forM ?_
  exact fun _ _ => rfl

theorem addEnvUses (hR : Frame R) : Leads True g (Edit.addEnvUses i) fun _ g' => R g g' := by
  unfold Edit.addEnvUses
  rw [Leads.bind_iff, Leads.envValues_iff]
  refine ⟨fun m _ => hR.forM ?_, fun _ => trivial⟩
  exact fun _ _ => rfl

theorem dropEnvUses (hR : Frame R) : Leads True g (Edit.dropEnvUses i) fun _ g' => R g g' := by
  unfold Edit.dropEnvUses
  rw [Leads.bind_iff, Leads.envValues_iff]
  refine ⟨fun m _ => hR.forM ?_, fun _ => trivial⟩
  exact fun _ _ => rfl

theorem addUses (hR : Frame R) : Leads True g (Edit.addUses i) fun _ g' => R g g' := by
  unfold Edit.addUses
  rw [Leads.bind_iff]
  exact hR.addInputUses.mono fun _ g₁ h₁ => hR.addEnvUses.mono fun _ _ h₂ => hR.trans h₁ h₂

theorem setEnv (hR : Frame R) {e : Option Environment} : Leads True g (Edit.setEnv i e) fun _ g' => R g g' := by
  unfold Edit.setEnv
  rw [Leads.bind_iff]
  refine hR.dropEnvUses.mono fun _ g₁ h₁ => ?_
  rw [Leads.bind_iff]
  refine Leads.mono (hR.modifyNode ?_) fun _ g₂ h₂ => ?_
  · exact fun _ => rfl
  rw [Leads.bind_iff, Leads.get_iff, Leads.bind_iff, Leads.lift_iff]
  refine Yields.of_ok fun _ _ => ?_
  split
  · exact hR.addEnvUses.mono fun _ _ h₃ => hR.trans (hR.trans h₁ h₂) h₃
  · exact hR.trans h₁ h₂

theorem copyDeoptTarget (hR : Frame R) : Leads True g (Edit.copyDeoptTarget i j) fun _ g' => R g g' := by
  unfold Edit.copyDeoptTarget
  rw [Leads.bind_iff, Leads.get_iff, Leads.bind_iff, Leads.lift_iff]
  refine Yields.of_ok fun s _ => ?_
  rw [Leads.bind_iff]
  refine Leads.mono (hR.modifyNode ?_) fun _ g₁ h₁ => ?_
  · exact fun _ => rfl
  exact hR.setEnv.mono fun _ _ h₂ => hR.trans h₁ h₂

theorem ensureSsaIndex (hR : Frame R) : Leads True g (Edit.ensureSsaIndex i j) fun _ g' => R g g' := by
  unfold Edit.ensureSsaIndex
  rw [Leads.bind_iff, Leads.get_iff, Leads.bind_iff, Leads.lift_iff]
  refine Yields.of_ok fun n _ => ?_
  split
  · rw [Leads.bind_iff, Leads.lift_iff]
    refine Yields.of_ok fun m _ => ?_
    split
    · rw [Leads.discard_iff, Leads.allocSsaIndex_iff]
      exact ⟨fun _ => hR.numbered g i, fun _ => trivial⟩
    · exact hR.refl g
  · exact hR.refl g

theorem computeUseLists (hR : Frame R) : Leads True g Edit.computeUseLists fun _ g' => R g g' := by
  unfold Edit.computeUseLists
  rw [Leads.bind_iff, Leads.modify_iff, Leads.bind_iff, Leads.get_iff]
  have hclear : R g { g with nodes := g.nodes.map fun n => { n with inputUses := [], envUses := [] } } := by
    have hmap : { g with nodes := g.nodes.map fun n => { n with inputUses := [], envUses := [] } } =
        g.mapNodes fun _ n => { n with inputUses := [], envUses := [] } := by
      unfold FlowGraph.mapNodes
      congr 1
      exact Array.ext (by simp) fun k _ _ => by simp
    rw [hmap]
    exact hR.nodes fun _ _ => rfl
  refine Leads.forM_of_forall (R g) hclear fun b _ g₁ h₁ => ?_
  rw [Leads.bind_iff, Leads.get_iff, Leads.bind_iff, Leads.lift_iff]
  refine Yields.of_ok fun ps _ => ?_
  rw [Leads.bind_iff]
  refine (Leads.forM_of_forall (R g) h₁ fun phi _ g₂ h₂ => ?_).mono fun _ g₃ h₃ => ?_
  · exact hR.addInputUses.mono fun _ _ h => hR.trans h₂ h
  · rw [Leads.bind_iff, Leads.get_iff]
    refine Leads.forM_of_forall (R g) h₃ fun i _ g₄ h₄ => ?_
    rw [Leads.bind_iff]
    exact hR.addInputUses.mono fun _ _ h => hR.addEnvUses.mono fun _ _ h' => hR.trans (hR.trans h₄ h) h'

end Frame

theorem FlowGraph.SameCode.frame : Frame SameCode where
  refl := .refl
  trans := .trans
  nodes hf := .mapNodes fun i n => by rw [hf]
  numbered g i := by
    have h : SameCode g (g.withNode i fun n => { n with ssaIndex := some g.nextSsaIndex }) := .withNode fun _ => rfl
    exact ⟨h.layout, h.catchEntries, h.postorder, h.code⟩

/-! ## Edits of the code -/

namespace Leads

open FlowGraph

variable {g : FlowGraph} {i j : InstId} {b : BlockId}

theorem code_replaceUses : Leads True g (Edit.replaceUses i j) fun _ g' => SameCode g g' := by
  refine replaceUses_of_ok.mono ?_
  rintro _ _ (⟨-, rfl⟩ | ⟨n, -, rfl⟩)
  · exact .refl _
  · have h : SameCode g (g.mapNodes fun k m =>
        ((m.redirectInputs n.inputUses j k).redirectEnv n.envUses j k).takeOver i j n.inputUses n.envUses k) := by
      refine .mapNodes fun k m => ?_
      have hinst : (((m.redirectInputs n.inputUses j k).redirectEnv n.envUses j k).takeOver i j n.inputUses n.envUses
          k).inst = (m.redirectInputs n.inputUses j k).inst := by
        unfold Node.takeOver
        split <;> try split
        all_goals rfl
      rw [hinst]
      simp [Node.redirectInputs]
    exact ⟨h.layout, h.catchEntries, h.postorder, h.code⟩

theorem code_remove : Leads True g (Edit.remove i) fun _ g' =>
    ∃ b, g.layout.home? i = some b ∧ SameCode (g.withLayout (g.layout.unplace i b)) g' := by
  refine remove_of_ok.mono ?_
  rintro _ _ ⟨n, b, -, hb, rfl⟩
  have hdrop : SameCode g (g.mapNodes fun j m => m.dropUses (Edit.usesBy i n.inst.args) (Edit.usesBy i n.envValues)
    j) :=
    .mapNodes fun _ _ => rfl
  have hblock (g₁ : FlowGraph) : SameCode g₁ (g₁.withNode i fun m => { m with block := none }) := .withNode fun _ => rfl
  exact ⟨b, hb, (hdrop.trans (hblock _)).withLayout _⟩

theorem code_insertBefore : Leads True g (Edit.insertBefore j i) fun _ g' => ∃ b, g.layout.home? j = some b ∧
    g.layout.home? i = none ∧
      SameCode (g.withLayout (g.layout.place i b (Layout.putBefore j i (g.layout.insts b)))) g' := by
  unfold Edit.insertBefore Edit.setBlock
  rw [bind_iff, onLayout_iff]
  refine Yields.of_ok fun l hl => ?_
  obtain ⟨b, hb, hfree, rfl⟩ := Layout.insertBefore_eq_ok.mp hl
  rw [bind_iff, get_iff, bind_iff, lift_iff]
  refine Yields.of_ok fun m _ => ?_
  rw [bind_iff]
  refine Leads.mono (SameCode.frame.modifyNode ?_) fun _ g₁ h₁ => SameCode.frame.addUses.mono fun _ g₂ h₂ => ?_
  · exact fun _ => rfl
  exact ⟨b, hb, hfree, h₁.trans h₂⟩

/-- Puts an instruction at the end of a block. -/
theorem code_append : Leads True g (Edit.append b i) fun _ g' => g.layout.home? i = none ∧
    SameCode (g.withLayout (g.layout.place i b (g.layout.insts b ++ [i]))) g' := by
  unfold Edit.append Edit.link Edit.setBlock
  rw [bind_iff, bind_iff, onLayout_iff]
  refine Yields.of_ok fun l hl => ?_
  obtain ⟨hfree, rfl⟩ := Layout.append_eq_ok.mp hl
  refine Leads.mono (SameCode.frame.modifyNode ?_) fun _ g₁ h₁ => SameCode.frame.addUses.mono fun _ g₂ h₂ =>
    ⟨hfree, h₁.trans h₂⟩
  exact fun _ => rfl

theorem code_modifyBlock {f : Block → Block} : Leads True g (Edit.modifyBlock b f) fun _ g' => SameCode g g' := by
  rw [modifyBlock_iff]
  exact ⟨fun _ => ⟨rfl, rfl, rfl, fun _ => rfl⟩, fun _ => trivial⟩

theorem code_removePhi : Leads True g (Edit.removePhi i) fun _ g' => SameCode g g' := by
  have hrest (g₁ : FlowGraph) (h₁ : SameCode g g₁) : Leads True g₁ (do
      Edit.dropInputUses i
      Edit.dropEnvUses i
      Edit.setBlock i none) fun _ g' => SameCode g g' := by
    unfold Edit.setBlock
    rw [bind_iff]
    refine SameCode.frame.dropInputUses.mono fun _ g₂ h₂ => ?_
    rw [bind_iff]
    refine SameCode.frame.dropEnvUses.mono fun _ g₃ h₃ => Leads.mono (SameCode.frame.modifyNode ?_) fun _ _ h₄ => ?_
    · exact fun _ => rfl
    · exact ((h₁.trans h₂).trans h₃).trans h₄
  unfold Edit.removePhi
  rw [bind_iff, get_iff, bind_iff, lift_iff]
  refine Yields.of_ok fun n _ => ?_
  cases n.block with
  | none => exact hrest g (.refl g)
  | some b =>
    rw [bind_iff]
    exact code_modifyBlock.mono fun _ g₁ h₁ => hrest g₁ h₁

end Leads

end Midend
