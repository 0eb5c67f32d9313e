import Midend.Proofs.Execution.Traces
import Midend.Proofs.Graph.Changes
import Midend.Representations

/-! # Graphs that grow by conversions

Conversions and constants are added to a graph while its use lists are walked. Everything that was there keeps its place
and what it is, and the use lists stay complete.
-/

namespace Midend

namespace Inst

variable {i : Inst} {f : Nat → InstId → InstId}

@[simp] theorem representation_mapArgs : (i.mapArgs f).representation = i.representation := by cases i <;> rfl

@[simp] theorem requiredRepresentation_mapArgs {k : Nat} :
    (i.mapArgs f).requiredRepresentation k = i.requiredRepresentation k := by
  cases i with
  | compare c => cases c; rfl
  | branch c => cases c; rfl
  | _ => rfl

theorem isDefinition_of_isAlivePhi (h : i.isAlivePhi = true) : i.isDefinition = true := by
  obtain ⟨slot, as, r, rfl⟩ := eq_phi_of_isAlivePhi h
  rfl

theorem representation_of_isGiven (h : i.isGiven = true) : i.representation = .tagged := by
  obtain ⟨c, rfl⟩ | ⟨k, rfl⟩ := eq_of_isGiven h <;> rfl

theorem isDefinition_of_isGiven (h : i.isGiven = true) : i.isDefinition = true := by
  obtain ⟨c, rfl⟩ | ⟨k, rfl⟩ := eq_of_isGiven h <;> rfl

end Inst

namespace Representations

open FlowGraph Execution Ssa

variable {g g' g'' : FlowGraph} {a b c p : BlockId} {d e i x : InstId} {n m : Node} {u : Use}

/-! ## What stays -/

/-- Everything in `g` is still in `g'`, at its place and with its form. New instructions stand in front of old ones. -/
structure Grows (g g' : FlowGraph) : Prop where
  nodes : ∀ (i : InstId) n, g.nodes[i.index]? = some n → ∃ n', g'.nodes[i.index]? = some n' ∧
    (∃ f, n'.inst = n.inst.mapArgs f) ∧ n'.block = n.block ∧ n'.cls = n.cls
  blocks : g'.blocks = g.blocks
  postorder : g'.postorder = g.postorder
  catchEntries : g'.catchEntries = g.catchEntries
  home : ∀ i : InstId, i.index < g.nodes.size → g'.layout.home? i = g.layout.home? i
  insts : ∀ b, (g'.insts b).filter (·.index < g.nodes.size) = g.insts b
  last : ∀ b, g'.lastInst b = g.lastInst b
  initial : ∃ cs, g'.initialDefinitions = g.initialDefinitions ++ cs ∧ ∀ c ∈ cs, g.nodes.size ≤ c.index

namespace Grows

theorem refl (hbounded : ∀ b, ∀ i ∈ g.insts b, i.index < g.nodes.size) : Grows g g where
  nodes i n hn := ⟨n, hn, ⟨fun _ d => d, by simp⟩, rfl, rfl⟩
  blocks := rfl
  postorder := rfl
  catchEntries := rfl
  home _ _ := rfl
  insts b := List.filter_eq_self.mpr fun i hi => decide_eq_true (hbounded b i hi)
  last _ := rfl
  initial := ⟨[], by simp, by simp⟩

theorem lt_size (h : Grows g g') (hi : i.index < g.nodes.size) : i.index < g'.nodes.size := by
  obtain ⟨n', hn', -⟩ := h.nodes i _ (Array.getElem?_eq_getElem hi)
  exact (Array.getElem?_eq_some_iff.mp hn').1

theorem size_le (h : Grows g g') : g.nodes.size ≤ g'.nodes.size := by
  by_contra hlt
  exact Nat.lt_irrefl _ (h.lt_size (i := ⟨g'.nodes.size⟩) (Nat.not_le.mp hlt))

theorem trans (h : Grows g g') (h' : Grows g' g'') : Grows g g'' where
  nodes i n hn := by
    obtain ⟨n', hn', ⟨f, hf⟩, hblock, hcls⟩ := h.nodes i n hn
    obtain ⟨n'', hn'', ⟨f', hf'⟩, hblock', hcls'⟩ := h'.nodes i n' hn'
    exact ⟨n'', hn'', ⟨_, by rw [hf', hf, Inst.mapArgs_mapArgs]⟩, hblock'.trans hblock, hcls'.trans hcls⟩
  blocks := h'.blocks.trans h.blocks
  postorder := h'.postorder.trans h.postorder
  catchEntries := h'.catchEntries.trans h.catchEntries
  home i hi := (h'.home i (h.lt_size hi)).trans (h.home i hi)
  insts b := by
    rw [← h.insts b, ← h'.insts b, List.filter_filter]
    refine List.filter_congr fun i _ => ?_
    by_cases hi : i.index < g.nodes.size
    · simp [hi, h.lt_size hi]
    · simp [hi]
  last b := (h'.last b).trans (h.last b)
  initial := by
    obtain ⟨cs, hcs, hnew⟩ := h.initial
    obtain ⟨cs', hcs', hnew'⟩ := h'.initial
    refine ⟨cs ++ cs', by rw [hcs', hcs, List.append_assoc], fun c hc => ?_⟩
    obtain hc | hc := List.mem_append.mp hc
    · exact hnew c hc
    · exact h.size_le.trans (hnew' c hc)

variable (h : Grows g g')

include h

theorem order_eq : g'.reversePostorder = g.reversePostorder := by unfold reversePostorder; rw [h.postorder]

theorem preds_eq (b : BlockId) : g'.preds b = g.preds b := by unfold FlowGraph.preds FlowGraph.block; rw [h.blocks]

theorem phisOf_eq (b : BlockId) : phisOf g' b = phisOf g b := by unfold phisOf; rw [h.blocks]

theorem mem_insts_iff (hi : i.index < g.nodes.size) : i ∈ g'.insts b ↔ i ∈ g.insts b := by
  rw [← h.insts b, List.mem_filter]
  simp [hi]

theorem mem_initial_iff (hd : d.index < g.nodes.size) : d ∈ g'.initialDefinitions ↔ d ∈ g.initialDefinitions := by
  obtain ⟨cs, hcs, hnew⟩ := h.initial
  rw [hcs, List.mem_append, or_iff_left]
  exact fun hd' => Nat.not_le.mpr hd (hnew d hd')

theorem isPlaced_eq (hi : i.index < g.nodes.size) : g'.isPlaced i = g.isPlaced i := by
  rw [Bool.eq_iff_iff]
  show g'.layout.isPlaced i = true ↔ g.layout.isPlaced i = true
  rw [Layout.isPlaced_iff, Layout.isPlaced_iff, h.home i hi]

theorem livePhi_iff (hd : d.index < g.nodes.size) : LivePhi g' b d ↔ LivePhi g b d := by
  obtain ⟨n', hn', ⟨f, hf⟩, -⟩ := h.nodes d _ (Array.getElem?_eq_getElem hd)
  unfold LivePhi aliveIn
  rw [h.phisOf_eq, hn', Array.getElem?_eq_getElem hd, Option.map_some, hf, Inst.isAlivePhi_mapArgs]
  rfl

theorem next_eq (b : BlockId) (hlast : ∀ i ∈ g.lastInst b, i.index < g.nodes.size) : g'.next b = g.next b := by
  refine next_congr h.catchEntries (h.last b) fun i hi => ?_
  have hn := Array.getElem?_eq_getElem (hlast i hi)
  obtain ⟨n', hn', ⟨f, hf⟩, -⟩ := h.nodes i _ hn
  rw [hn', hn, Option.map_some, hf, Inst.successors_mapArgs]
  rfl

theorem conversionPoint?_eq (hu : u.user.index < g.nodes.size) : conversionPoint? g' u = conversionPoint? g u := by
  have hn := Array.getElem?_eq_getElem hu
  obtain ⟨n', hn', ⟨f, hf⟩, hblock, -⟩ := h.nodes u.user _ hn
  have hopcode : g'.opcode u.user = g.opcode u.user := by
    rw [opcode_eq_ok.mpr ⟨_, hn', rfl⟩, opcode_eq_ok.mpr ⟨_, hn, rfl⟩, hf, Inst.opcode_mapArgs]
  have halive : g'.isAlivePhi u.user = g.isAlivePhi u.user := by
    rw [isAlivePhi_eq_ok.mpr ⟨_, hn', rfl⟩, isAlivePhi_eq_ok.mpr ⟨_, hn, rfl⟩, hf, Inst.isAlivePhi_mapArgs]
  have hhome : g'.instBlock u.user = g.instBlock u.user := by
    rw [instBlock_eq_ok.mpr ⟨_, hn', rfl⟩, instBlock_eq_ok.mpr ⟨_, hn, rfl⟩, hblock]
  have hlast : g'.lastInst = g.lastInst := funext h.last
  unfold conversionPoint?
  simp only [hopcode, halive, hhome, h.preds_eq, hlast, h.isPlaced_eq hu]

end Grows

/-! ## Use lists -/

/-- The instruction reads its inputs: it is in a discovered block, or a live phi of one. -/
def Reader (g : FlowGraph) (i : InstId) : Prop := ∃ b ∈ g.reversePostorder, i ∈ g.insts b ∨ LivePhi g b i

/-- What readers may read: the initial definitions and everything in discovered blocks. -/
def Value (g : FlowGraph) (d : InstId) : Prop := d ∈ g.initialDefinitions ∨ Reader g d

theorem Grows.reader_iff (h : Grows g g') (hi : i.index < g.nodes.size) : Reader g' i ↔ Reader g i := by
  unfold Reader
  rw [h.order_eq]
  simp only [h.mem_insts_iff hi, h.livePhi_iff hi]

theorem Grows.value_iff (h : Grows g g') (hd : d.index < g.nodes.size) : Value g' d ↔ Value g d := by
  unfold Value
  rw [h.mem_initial_iff hd, h.reader_iff hd]

/-- It can be told where the use is to be converted, and if it is anywhere, the input exists. -/
def Convertible (g : FlowGraph) (u : Use) : Prop :=
  ∃ n point, g.nodes[u.user.index]? = some n ∧ conversionPoint? g u = .ok point ∧
    (point ≠ none → u.index < n.inst.args.length)

theorem Convertible.lt_size (h : Convertible g u) : u.user.index < g.nodes.size := by
  obtain ⟨n, _, hn, -⟩ := h
  exact (Array.getElem?_eq_some_iff.mp hn).1

theorem Convertible.grows (hu : Convertible g u) (h : Grows g g') : Convertible g' u := by
  obtain ⟨n, point, hn, hpoint, hlen⟩ := hu
  obtain ⟨n', hn', ⟨f, hf⟩, -⟩ := h.nodes _ n hn
  refine ⟨n', point, hn', ?_, fun hsome => ?_⟩
  · rw [h.conversionPoint?_eq (Array.getElem?_eq_some_iff.mp hn).1, hpoint]
  · rw [hf, Inst.args_mapArgs, List.length_mapIdx]
    exact hlen hsome

theorem conversionPoint?_of_not_phi (hn : g.nodes[u.user.index]? = some n) (hop : n.inst.opcode ≠ .phi) :
    conversionPoint? g u = .ok (if g.isPlaced u.user then some u.user else none) := by
  unfold conversionPoint?
  rw [opcode_eq_ok.mpr ⟨n, hn, rfl⟩]
  simp only [bind, Except.bind, if_neg hop]
  rfl

theorem conversionPoint?_of_phi {ps : List BlockId} (hn : g.nodes[u.user.index]? = some n)
    (halive : n.inst.isAlivePhi = true) (hblock : n.block = some b) (hps : g.preds b = .ok ps) :
    conversionPoint? g u = .ok (ps[u.index]?.bind g.lastInst) := by
  unfold conversionPoint?
  rw [opcode_eq_ok.mpr ⟨n, hn, Inst.opcode_of_isPhi (Inst.isPhi_of_isAlivePhi halive)⟩,
    isAlivePhi_eq_ok.mpr ⟨n, hn, halive⟩, instBlock_eq_ok.mpr ⟨n, hn, hblock⟩]
  simp only [bind, Except.bind, hps]
  rfl

theorem exists_mem_of_conversionPoint? (hsound : g.layout.Sound) (h : conversionPoint? g u = .ok (some e)) :
    ∃ b, e ∈ g.insts b := by
  unfold conversionPoint? at h
  obtain ⟨op, -, h⟩ := bind_eq_ok.mp h
  obtain ⟨-, h⟩ | ⟨-, h⟩ := ite_eq_ok.mp h
  · obtain ⟨alive, -, h⟩ := bind_eq_ok.mp h
    obtain ⟨-, h⟩ | ⟨-, h⟩ := ite_eq_ok.mp h
    · cases h
    obtain ⟨home, -, h⟩ := bind_eq_ok.mp h
    cases home with
    | none => cases h
    | some b =>
      obtain ⟨ps, -, h⟩ := bind_eq_ok.mp h
      obtain ⟨p, -, hlast⟩ := Option.bind_eq_some_iff.mp (Except.ok.inj h)
      exact ⟨p, List.mem_of_getLast? hlast⟩
  · have h := Except.ok.inj h
    rw [Option.ite_none_right_eq_some] at h
    obtain ⟨hplaced, heq⟩ := h
    obtain rfl := Option.some_inj.mp heq
    obtain ⟨b, hb⟩ := Layout.isPlaced_iff.mp hplaced
    exact ⟨b, hsound.mem_iff.mpr hb⟩

/-- If the use is to be converted, it is a use of `d`. -/
def UsedAt (g : FlowGraph) (d : InstId) (u : Use) : Prop :=
  ∀ n e, g.nodes[u.user.index]? = some n → conversionPoint? g u = .ok (some e) → n.inst.args[u.index]? = some d

/-- The use lists of a graph have the inputs of all readers, and each use in them can be converted. -/
structure Linked (g : FlowGraph) : Prop where
  sound : g.layout.Sound
  bounded : ∀ b, ∀ i ∈ g.insts b, i.index < g.nodes.size
  initial : ∀ d ∈ g.initialDefinitions, ∃ n, g.nodes[d.index]? = some n ∧ n.inst.isGiven = true
  phis : ∀ b ∈ g.reversePostorder, ∃ k, g.blocks[b.index]? = some k ∧ ∀ phi ∈ k.phis, phi.index < g.nodes.size
  apart : ∀ b, ∀ i ∈ g.insts b, ∀ n, g.nodes[i.index]? = some n → n.inst.opcode ≠ .phi
  ends : ∀ b ∈ g.reversePostorder, ∀ phi, LivePhi g b phi → ∃ n ps, g.nodes[phi.index]? = some n ∧ n.block = some b ∧
    g.preds b = .ok ps ∧ n.inst.args.length = ps.length ∧ ∀ p ∈ ps, p ∈ g.reversePostorder ∧
    ∃ last, g.lastInst p = some last
  inputs : ∀ i, Reader g i → ∃ n, g.nodes[i.index]? = some n ∧ ∀ k d, n.inst.args[k]? = some d →
    Value g d ∧ ∃ m, g.nodes[d.index]? = some m ∧ m.inst.isDefinition = true ∧ ⟨i, k⟩ ∈ m.inputUses
  uses : ∀ d n, Value g d → g.nodes[d.index]? = some n → ∀ u ∈ n.inputUses, Convertible g u ∧ UsedAt g d u

namespace Linked

variable (hg : Linked g)

include hg

theorem refl : Grows g g := .refl hg.bounded

theorem lt_size_of_reader (hi : Reader g i) : i.index < g.nodes.size := by
  obtain ⟨n, hn, -⟩ := hg.inputs i hi
  exact (Array.getElem?_eq_some_iff.mp hn).1

theorem lt_size_of_value (hd : Value g d) : d.index < g.nodes.size := by
  obtain hd | hd := hd
  · obtain ⟨n, hn, -⟩ := hg.initial d hd
    exact (Array.getElem?_eq_some_iff.mp hn).1
  · exact hg.lt_size_of_reader hd

theorem lt_size_of_phi (hb : b ∈ g.reversePostorder) (hphi : d ∈ phisOf g b) : d.index < g.nodes.size := by
  obtain ⟨k, hk, hphis⟩ := hg.phis b hb
  rw [phisOf_eq hk] at hphi
  exact hphis d hphi

/-- What has to be seen to of a graph that has grown: the new instructions, the inputs of readers and the uses. -/
theorem grows (h : Grows g g') (hsound : g'.layout.Sound) (hbounded : ∀ b, ∀ i ∈ g'.insts b, i.index < g'.nodes.size)
    (hgiven : ∀ d ∈ g'.initialDefinitions, g.nodes.size ≤ d.index →
      ∃ n, g'.nodes[d.index]? = some n ∧ n.inst.isGiven = true)
    (happart : ∀ (i : InstId) n, g.nodes.size ≤ i.index → g'.nodes[i.index]? = some n → n.inst.opcode ≠ .phi)
    (hinputs : ∀ i, Reader g' i → ∃ n, g'.nodes[i.index]? = some n ∧ ∀ k d, n.inst.args[k]? = some d →
      Value g' d ∧ ∃ m, g'.nodes[d.index]? = some m ∧ m.inst.isDefinition = true ∧ ⟨i, k⟩ ∈ m.inputUses)
    (huses : ∀ d n, Value g' d → g'.nodes[d.index]? = some n → ∀ u ∈ n.inputUses,
      Convertible g' u ∧ UsedAt g' d u) : Linked g' where
  sound := hsound
  bounded := hbounded
  initial d hd := by
    obtain hlt | hge := Nat.lt_or_ge d.index g.nodes.size
    · obtain ⟨n, hn, hgiven⟩ := hg.initial d ((h.mem_initial_iff hlt).mp hd)
      obtain ⟨n', hn', ⟨f, hf⟩, -⟩ := h.nodes d n hn
      exact ⟨n', hn', by rwa [hf, Inst.isGiven_mapArgs]⟩
    · exact hgiven d hd hge
  phis b hb := by
    rw [h.order_eq] at hb
    obtain ⟨k, hk, hall⟩ := hg.phis b hb
    exact ⟨k, by rw [h.blocks, hk], fun phi hphi => h.lt_size (hall phi hphi)⟩
  apart b i hi n hn := by
    obtain hlt | hge := Nat.lt_or_ge i.index g.nodes.size
    · have hm := Array.getElem?_eq_getElem hlt
      obtain ⟨n', hn', ⟨f, hf⟩, -⟩ := h.nodes i _ hm
      obtain rfl := Option.some_inj.mp (hn.symm.trans hn')
      rw [hf, Inst.opcode_mapArgs]
      exact hg.apart b i ((h.mem_insts_iff hlt).mp hi) _ hm
    · exact happart i n hge hn
  ends b hb phi hphi := by
    rw [h.order_eq] at hb
    have hlt := hg.lt_size_of_phi hb (h.phisOf_eq b ▸ hphi.1)
    obtain ⟨n, ps, hn, hblock, hps, hlen, hall⟩ := hg.ends b hb phi ((h.livePhi_iff hlt).mp hphi)
    obtain ⟨n', hn', ⟨f, hf⟩, hblock', -⟩ := h.nodes phi n hn
    refine ⟨n', ps, hn', hblock'.trans hblock, (h.preds_eq b).trans hps, ?_, fun p hp => ?_⟩
    · rw [hf, Inst.args_mapArgs, List.length_mapIdx, hlen]
    · obtain ⟨hp, last, hlast⟩ := hall p hp
      exact ⟨h.order_eq ▸ hp, last, (h.last p).trans hlast⟩
  inputs := hinputs
  uses := huses

theorem value_mono (h : Grows g g') (hd : Value g d) : Value g' d := (h.value_iff (hg.lt_size_of_value hd)).mpr hd

/-- The inputs of readers have a place where they are converted. It is in a discovered block. -/
theorem conversionPoint?_of_reader (hi : Reader g i) (hn : g.nodes[i.index]? = some n) {k : Nat}
    (hk : k < n.inst.args.length) : ∃ e, conversionPoint? g ⟨i, k⟩ = .ok (some e) ∧ ∃ b ∈ g.reversePostorder,
    e ∈ g.insts b := by
  obtain ⟨b, hb, hi | hphi⟩ := hi
  · have hplaced : g.isPlaced i = true := Layout.isPlaced_iff.mpr ⟨b, hg.sound.mem_iff.mp hi⟩
    refine ⟨i, ?_, b, hb, hi⟩
    rw [conversionPoint?_of_not_phi (u := ⟨i, k⟩) hn (hg.apart b i hi n hn), if_pos hplaced]
  · obtain ⟨m, ps, hm, hblock, hps, hlen, hall⟩ := hg.ends b hb i hphi
    obtain rfl := Option.some_inj.mp (hn.symm.trans hm)
    obtain ⟨m, hm, halive⟩ := Definite.exists_alive hphi
    obtain rfl := Option.some_inj.mp (hn.symm.trans hm)
    have hp := List.getElem?_eq_getElem (hlen ▸ hk)
    obtain ⟨hmem, last, hlast⟩ := hall _ (List.mem_of_getElem? hp)
    refine ⟨last, ?_, _, hmem, List.mem_of_getLast? hlast⟩
    rw [conversionPoint?_of_phi (u := ⟨i, k⟩) hn halive hblock hps, hp, Option.bind_some, hlast]

end Linked

/-! ## Settled definitions -/

/-- The use wants what the definition is, or is left aside. -/
def Fits (g : FlowGraph) (d : InstId) (u : Use) : Prop :=
  ∃ n m, g.nodes[u.user.index]? = some n ∧ g.nodes[d.index]? = some m ∧
    (m.inst.representation = n.inst.requiredRepresentation u.index ∨ conversionPoint? g u = .ok none)

def Settled (g : FlowGraph) (d : InstId) : Prop := ∀ n, g.nodes[d.index]? = some n → ∀ u ∈ n.inputUses, Fits g d u

theorem Fits.grows (hu : Fits g d u) (h : Grows g g') : Fits g' d u := by
  obtain ⟨n, m, hn, hm, hfits⟩ := hu
  obtain ⟨n', hn', ⟨f, hf⟩, -⟩ := h.nodes _ n hn
  obtain ⟨m', hm', ⟨f', hf'⟩, -⟩ := h.nodes _ m hm
  refine ⟨n', m', hn', hm', ?_⟩
  rw [hf, hf', Inst.representation_mapArgs, Inst.requiredRepresentation_mapArgs,
    h.conversionPoint?_eq (Array.getElem?_eq_some_iff.mp hn).1]
  exact hfits

/-- Nothing becomes unsettled from `g` to `g'`: whatever use is new, of an old definition or of a new one, fits. -/
structure Advances (g g' : FlowGraph) : Prop extends Grows g g' where
  uses : ∀ (d : InstId) n n', g.nodes[d.index]? = some n → g'.nodes[d.index]? = some n' → ∀ u ∈ n'.inputUses,
    u ∈ n.inputUses ∨ Fits g' d u
  fresh : ∀ d : InstId, g.nodes.size ≤ d.index → Settled g' d

theorem Settled.advances (hd : Settled g d) (h : Advances g g') : Settled g' d := by
  obtain hlt | hge := Nat.lt_or_ge d.index g.nodes.size
  · intro n' hn' u hu
    have hn := Array.getElem?_eq_getElem hlt
    obtain hold | hfits := h.uses d _ n' hn hn' u hu
    · exact (hd _ hn u hold).grows h.toGrows
    · exact hfits
  · exact h.fresh d hge

namespace Advances

theorem refl (hg : Linked g) : Advances g g where
  toGrows := hg.refl
  uses _ n n' hn hn' u hu := by
    obtain rfl := Option.some_inj.mp (hn.symm.trans hn')
    exact .inl hu
  fresh d hd n hn := by
    rw [Array.getElem?_eq_none hd] at hn
    cases hn

theorem trans (h : Advances g g') (h' : Advances g' g'') : Advances g g'' where
  toGrows := h.toGrows.trans h'.toGrows
  uses d n n'' hn hn'' u hu := by
    obtain ⟨n', hn', -⟩ := h.nodes d n hn
    obtain hu | hfits := h'.uses d n' n'' hn' hn'' u hu
    · obtain hu | hfits := h.uses d n n' hn hn' u hu
      · exact .inl hu
      · exact .inr (hfits.grows h'.toGrows)
    · exact .inr hfits
  fresh d hd := (h.fresh d hd).advances h'

end Advances

end Representations

end Midend
