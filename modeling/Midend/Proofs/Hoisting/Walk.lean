import Midend.Proofs.Graph.Changes
import Midend.Proofs.Graph.Code
import Midend.Proofs.Hoisting
import Midend.Proofs.Hoisting.Places

/-! # The pass over the loops

The pass looks at the instructions of one loop after another. Each of them stays, is taken out, or goes to the end of
the block that leads into the loop.
-/

namespace Midend

namespace Hoisting

open Midend.Flow FlowGraph Execution

variable {g t t' : FlowGraph} {loops : BlockId → Block → Option (List Nat)} {b c d p header : BlockId}
  {i j x last : InstId} {n : Node} {blocks path : List BlockId} {written : Bool}

/-! ## What is left alone -/

/-- Only the layout, the books and the inputs of what has no value have changed. -/
structure SameValues (g g' : FlowGraph) : Prop where
  blocks : g'.blocks = g.blocks
  preorder : g'.preorder = g.preorder
  catchEntries : g'.catchEntries = g.catchEntries
  initial : g'.initialDefinitions = g.initialDefinitions
  nodes : Changes g g' fun _ n n' =>
    (∃ f, n'.inst = n.inst.mapArgs f) ∧ (n.inst.isDefinition = true → n'.inst = n.inst)

namespace SameValues

variable {g' g'' : FlowGraph}

theorem mapNodes {f : InstId → Node → Node} (hf : ∀ j n, (f j n).inst = n.inst) : SameValues g (g.mapNodes f) where
  blocks := rfl
  preorder := rfl
  catchEntries := rfl
  initial := rfl
  nodes := .mapNodes rfl fun j n => ⟨⟨fun _ a => a, by rw [hf, Inst.mapArgs_id]⟩, fun _ => hf j n⟩

theorem refl (g : FlowGraph) : SameValues g g where
  blocks := rfl
  preorder := rfl
  catchEntries := rfl
  initial := rfl
  nodes := ⟨rfl, fun _ n hn => ⟨n, hn, ⟨fun _ a => a, by rw [Inst.mapArgs_id]⟩, fun _ => rfl⟩⟩

theorem trans (h : SameValues g g') (h' : SameValues g' g'') : SameValues g g'' where
  blocks := h'.blocks.trans h.blocks
  preorder := h'.preorder.trans h.preorder
  catchEntries := h'.catchEntries.trans h.catchEntries
  initial := h'.initial.trans h.initial
  nodes := by
    refine ⟨h'.nodes.size.trans h.nodes.size, fun j n'' hn'' => ?_⟩
    obtain ⟨n', hn', ⟨f', hf'⟩, hsame'⟩ := h'.nodes.node j n'' hn''
    obtain ⟨n, hn, ⟨f, hf⟩, hsame⟩ := h.nodes.node j n' hn'
    refine ⟨n, hn, ⟨fun k a => f' k (f k a), by rw [hf', hf, Inst.mapArgs_mapArgs]⟩, fun hdef => ?_⟩
    rw [hsame' (by rw [hf, Inst.isDefinition_mapArgs, hdef]), hsame hdef]

end SameValues

theorem frame_sameValues : Frame fun g g' => SameValues g g' ∧ g'.layout = g.layout where
  refl g := ⟨.refl g, rfl⟩
  trans h h' := ⟨h.1.trans h'.1, h'.2.trans h.2⟩
  nodes hf := ⟨.mapNodes hf, rfl⟩
  numbered g i :=
    have h : SameValues g (g.withNode i fun n => { n with ssaIndex := some g.nextSsaIndex }) :=
      .mapNodes fun j n => by split <;> rfl
    ⟨⟨h.blocks, h.preorder, h.catchEntries, h.initial, ⟨h.nodes.size, h.nodes.node⟩⟩, rfl⟩

/-- The graph `t` has the loops of `g` and the values of `g`, with some of its code hoisted. -/
structure Carried (g : FlowGraph) (loops : BlockId → Block → Option (List Nat)) (t : FlowGraph) : Prop where
  values : SameValues (g.withLoops loops) t
  located : t.Located
  hoisted : Hoisted g t.layout

/-- `i` may have been taken out or moved to `p`, and nothing else. -/
structure MovesOnly (i : InstId) (p : BlockId) (t t' : FlowGraph) : Prop where
  home : ∀ j, j ≠ i → t'.layout.home? j = t.layout.home? j
  insts : ∀ d, d ≠ p → t'.insts d ⊆ t.insts d

theorem MovesOnly.refl (i : InstId) (p : BlockId) (t : FlowGraph) : MovesOnly i p t t :=
  ⟨fun _ _ => rfl, fun _ _ => List.Subset.refl _⟩

theorem MovesOnly.of_layout_eq {t'' : FlowGraph} (h : MovesOnly i p t t') (hlayout : t''.layout = t'.layout) :
    MovesOnly i p t t'' where
  home j hj := hlayout ▸ h.home j hj
  insts d hd := by
    unfold FlowGraph.insts
    rw [hlayout]
    exact h.insts d hd

namespace Carried

theorem start (hg : Definite g) : Carried g loops (g.withLoops loops) where
  values := .refl _
  located := hg.located.congr rfl rfl rfl (fun _ n hn => ⟨n, hn, rfl⟩) fun b i => by
    unfold HasPhi withLoops
    rw [blocks_mapBlocks]
    cases g.blocks[b.index]? <;> simp
  hoisted := .start hg

variable (hg : Definite g) (hcurrent : g.Current) (h : Carried g loops t)

include h

theorem exists_node (hn : g.nodes[i.index]? = some n) : ∃ n', t.nodes[i.index]? = some n' ∧
    (∃ f, n'.inst = n.inst.mapArgs f) ∧ (n.inst.isDefinition = true → n'.inst = n.inst) :=
  h.values.nodes.exists_node hn

theorem node_of {n' : Node} (hn' : t.nodes[i.index]? = some n') : ∃ n, g.nodes[i.index]? = some n ∧
    (∃ f, n'.inst = n.inst.mapArgs f) ∧ (n.inst.isDefinition = true → n'.inst = n.inst) :=
  h.values.nodes.node i n' hn'

theorem blocks_eq (b : BlockId) :
    t.blocks[b.index]? = (g.blocks[b.index]?).map fun k => { k with loop := loops b k } := by
  rw [h.values.blocks, withLoops, blocks_mapBlocks]

theorem dominates_eq : t.dominates b c = g.dominates b c := by
  have hsize : t.blocks.size = g.blocks.size := by rw [h.values.blocks, withLoops, size_mapBlocks]
  rw [dominates, dominates, hsize]
  refine dominatesUpTo_congr (fun d => ?_) _
  rw [h.blocks_eq, Option.map_map]
  rfl

theorem preHeader?_eq : t.preHeader? header = g.preHeader? header := by
  unfold FlowGraph.preHeader? FlowGraph.block
  rw [h.blocks_eq]
  cases g.blocks[header.index]? <;> rfl

theorem live_eq (b : BlockId) : t.live b = g.live b ∧ ∀ d, LivePhi t b d ↔ LivePhi g b d := by
  refine live_congr ?_ fun i => ?_
  · rw [h.blocks_eq, Option.map_map]
    rfl
  · cases hn : g.nodes[i.index]? with
    | none =>
      have hnone : t.nodes[i.index]? = none := by
        rw [Array.getElem?_eq_none_iff] at hn ⊢
        rw [h.values.nodes.size]
        exact hn
      rw [hnone]
    | some n =>
      obtain ⟨n', hn', ⟨f, hf⟩, -⟩ := h.exists_node hn
      rw [hn', Option.map_some, Option.map_some, hf, Inst.isAlivePhi_mapArgs]

theorem hasPhi_iff : t.HasPhi b i ↔ g.HasPhi b i := by
  unfold HasPhi
  rw [h.blocks_eq]
  cases g.blocks[b.index]? <;> simp

theorem successors_eq {n' : Node} (hn : g.nodes[i.index]? = some n) (hn' : t.nodes[i.index]? = some n') :
    n'.inst.successors = n.inst.successors := by
  obtain ⟨m, hm, ⟨f, hf⟩, -⟩ := h.node_of hn'
  obtain rfl := Option.some_inj.mp (hn.symm.trans hm)
  rw [hf, Inst.successors_mapArgs]

omit h in
theorem next_eq_nil (hb : b ≠ graphEntry) (hnone : ∀ i ∈ t.lastInst b, ∀ n, t.nodes[i.index]? = some n →
    n.inst.successors = []) : t.next b = [] := by
  unfold next succs
  rw [if_neg hb]
  cases hi : t.lastInst b with
  | none => rfl
  | some i =>
    unfold FlowGraph.inst FlowGraph.node
    cases hn : t.nodes[i.index]? with
    | none => simp only [hn, orFault, bind, Except.bind]
    | some n =>
      simp only [hn, orFault, bind, Except.bind, pure, Except.pure]
      exact hnone i hi n hn

include hg

theorem next_eq (hb : g.Reachable b) : t.next b = g.next b := by
  by_cases hentry : b = graphEntry
  · unfold next succs
    rw [if_pos hentry, if_pos hentry, h.values.catchEntries]
    rfl
  by_cases hjump : ∃ i ∈ g.lastInst b, Jumps g i
  · obtain ⟨i, hi, hjump⟩ := hjump
    have hmem : i ∈ t.layout.insts b := (h.hoisted.jumps b i hb hjump).mpr (List.mem_of_getLast? hi)
    obtain ⟨front, hfront⟩ := h.hoisted.last b i hb hjump hmem
    have hlast : t.lastInst b = g.lastInst b := by
      rw [Option.mem_def.mp hi]
      show (t.layout.insts b).getLast? = _
      rw [hfront, List.getLast?_concat]
    refine next_congr h.values.catchEntries hlast fun j hj => ?_
    cases hn : g.nodes[j.index]? with
    | none =>
      rw [Option.map_none, Option.map_eq_none_iff, Array.getElem?_eq_none_iff, h.values.nodes.size]
      exact Array.getElem?_eq_none_iff.mp hn
    | some n =>
      obtain ⟨n', hn', -⟩ := h.exists_node hn
      rw [hn', Option.map_some, Option.map_some, h.successors_eq hn hn']
  · rw [not_exists] at hjump
    have hnone : g.next b = [] := next_eq_nil hentry fun i hi n hn => by
      by_contra hsucc
      exact hjump i ⟨hi, n, hn, hsucc⟩
    rw [hnone]
    refine next_eq_nil hentry fun i hi n' hn' => ?_
    obtain ⟨n, hn, -⟩ := h.node_of hn'
    rw [h.successors_eq hn hn']
    by_contra hsucc
    have hi' : i ∈ g.insts b := (h.hoisted.jumps b i hb ⟨n, hn, hsucc⟩).mp (List.mem_of_getLast? hi)
    obtain ⟨front, back, hsplit⟩ := List.append_of_mem hi'
    obtain rfl := hg.rest_of_terminator hb hsplit hn (isTerminator_of_jumps ⟨n, hn, hsucc⟩ hn)
    refine hjump i ⟨?_, n, hn, hsucc⟩
    show (g.insts b).getLast? = some i
    rw [hsplit, List.getLast?_concat]

theorem isPath_iff : t.IsPath path ↔ g.IsPath path := isPath_congr fun _ hb => h.next_eq hg hb

theorem enters (hcurrent : g.Current) (hreach : g.Reachable header) (hpre : g.preHeader? header = .ok (some p))
    (hlast : t.lastInst p = some last) (hn : t.nodes[last.index]? = some n) (hgoto : n.inst.opcode = .goto) :
    g.Enters p header := by
  obtain ⟨hp, hedge, hne, hdom⟩ := hcurrent.of_preHeader hreach hpre
  have hnext : header ∈ t.next p := by
    rw [h.next_eq hg hp]
    exact hedge
  have hentry : p ≠ graphEntry := by
    rintro rfl
    have hmem := List.mem_of_getLast? hlast
    rw [show t.layout.insts graphEntry = [] from h.hoisted.entry] at hmem
    cases hmem
  have hsuccs := next_of_ok (SsaForm.succs_of_last hentry hlast hn)
  rw [hsuccs] at hnext
  obtain ⟨target, htarget⟩ := Inst.eq_goto_of_successors hgoto (List.ne_nil_of_mem hnext)
  rw [htarget, Inst.successors, List.mem_singleton] at hnext
  refine ⟨hreach, ?_, hne, hdom⟩
  rw [← h.next_eq hg hp, hsuccs, htarget, Inst.successors, hnext]

theorem place_of_before (hx : Before g t.layout x i c) {a : BlockId} (ha : t.instBlock x = .ok (some a))
    (hdom : g.Dominates a p) :
    x ∈ g.initialDefinitions ∨ (∃ a, (x ∈ g.live a ∨ t.layout.home? x = some a) ∧ g.Dominates a p) ∨
      ∃ a, x ∈ g.insts a ∧ t.layout.home? x = none := by
  obtain ⟨m, hm, hblock⟩ := instBlock_eq_ok.mp ha
  have hplaced {e : BlockId} (he : t.layout.home? x = some e) :
      ∃ a, (x ∈ g.live a ∨ t.layout.home? x = some a) ∧ g.Dominates a p := by
    obtain hplaced | hplaced := h.located.placed x m e hm he
    · obtain rfl := Option.some_inj.mp (hblock.symm.trans hplaced)
      exact ⟨a, .inr he, hdom⟩
    · simp [hplaced] at hblock
  cases hx with
  | initial hx => exact .inl hx
  | above hx => exact .inr (.inl (hplaced hx))
  | ahead hx => exact .inr (.inl (hplaced (h.hoisted.sound.mem_iff.mp (hx.subset List.mem_cons_self))))
  | gone hplaced hx => exact .inr (.inr ⟨_, hplaced, hx⟩)
  | @live e hx hdom' =>
    refine .inr (.inl ?_)
    obtain ⟨-, -, hphi⟩ := live_iff.mp hx
    obtain ⟨k, hk, hmem⟩ := Ssa.exists_of_mem_phisOf hphi.1
    obtain hknown | hnone | ⟨e', he'⟩ := (h.located.phis e x (h.hasPhi_iff.mpr ⟨k, hk, hmem⟩)).2 m hm
    · obtain rfl := Option.some_inj.mp (hblock.symm.trans hknown)
      exact ⟨a, .inl hx, hdom⟩
    · simp [hnone] at hblock
    · obtain ⟨b, hb, -⟩ := h.hoisted.home x e' he'
      exact absurd hb (hg.not_placed_of_livePhi hphi)

end Carried

/-! ## One instruction -/

theorem sameValues_movedTo {is : List InstId} {place : Option BlockId} : SameValues t (movedTo t i c p is place) := by
  unfold movedTo withNode
  generalize (t.layout.unplace i c).place i p is = l
  have hlayout : SameValues t (t.withLayout l) := ⟨rfl, rfl, rfl, rfl, ⟨rfl, (SameValues.refl t).nodes.node⟩⟩
  exact hlayout.trans (.mapNodes fun j n => by split <;> rfl)

theorem sameValues_rewired {k : Nat} {a e : InstId} (hn : t.nodes[i.index]? = some n)
    (hdef : n.inst.isDefinition = false) : SameValues t (t.rewired i k a e) := by
  have hchanges : Changes t (t.rewired i k a e) fun j m m' =>
      m'.inst = if j = i then m.inst.setArg k e else m.inst := .rewired fun _ _ => rfl
  refine ⟨rfl, rfl, rfl, rfl, ⟨hchanges.size, fun j m' hm' => ?_⟩⟩
  obtain ⟨m, hm, hinst⟩ := hchanges.node j m' hm'
  refine ⟨m, hm, ?_, fun hyes => ?_⟩
  · rw [hinst]
    split
    · exact ⟨_, Inst.setArg_eq k e⟩
    · exact ⟨fun _ a => a, by rw [Inst.mapArgs_id]⟩
  · rw [hinst, if_neg]
    rintro rfl
    obtain rfl := Option.some_inj.mp (hn.symm.trans hm)
    simp [hdef] at hyes

/-- `t'` is `t` with `i` taken out or moved to `p`. -/
structure Stepped (g : FlowGraph) (loops : BlockId → Block → Option (List Nat)) (i : InstId) (p : BlockId)
    (t t' : FlowGraph) : Prop where
  carried : Carried g loops t'
  only : MovesOnly i p t t'

theorem Carried.stepped (h : Carried g loops t) (i : InstId) (p : BlockId) : Stepped g loops i p t t := ⟨h, .refl i p t⟩

theorem Stepped.same {t'' : FlowGraph} (h : Stepped g loops i p t t') (hvalues : SameValues t' t'')
    (hlayout : t''.layout = t'.layout) (hlocated : t''.Located) : Stepped g loops i p t t'' where
  carried := ⟨h.carried.values.trans hvalues, hlocated, hlayout ▸ h.carried.hoisted⟩
  only := h.only.of_layout_eq hlayout

theorem leads_remove (h : Carried g loops t) (hn : t.nodes[i.index]? = some n) (hsucc : n.inst.successors = []) :
    Leads True t (Edit.remove i) fun _ t' => Stepped g loops i p t t' := by
  refine ((Leads.remove_of_ok).and (Keeps.located_remove t h.located)).mono ?_
  rintro _ _ ⟨⟨n', c, hn', hc, rfl⟩, hlocated⟩
  obtain rfl := Option.some_inj.mp (hn.symm.trans hn')
  obtain ⟨m, hm, ⟨f, hf⟩, -⟩ := h.node_of hn
  have hjumps : ¬ Jumps g i := by
    rintro ⟨m', hm', hne⟩
    obtain rfl := Option.some_inj.mp (hm.symm.trans hm')
    rw [hf, Inst.successors_mapArgs] at hsucc
    exact hne hsucc
  have hvalues : SameValues t (t.removed i n c) := by
    refine ⟨rfl, rfl, rfl, rfl, .removed fun j k block _ => ?_⟩
    exact ⟨⟨fun _ a => a, by simp [Node.dropUses]⟩, fun _ => rfl⟩
  refine ⟨⟨h.values.trans hvalues, hlocated, h.hoisted.takeOut hc hjumps⟩, fun j hj => ?_, fun d hd => ?_⟩
  · show (t.layout.unplace i c).home? j = _
    rw [Layout.home?_unplace, if_neg hj]
  · show (t.layout.unplace i c).insts d ⊆ _
    rw [h.hoisted.sound.insts_unplace hc]
    exact List.erase_subset

section

variable (hg : Definite g) (hcurrent : g.Current) (h : Carried g loops t) (hloop : g.IsLoop header blocks)
  (hpre : g.preHeader? header = .ok (some p)) (hc : t.layout.home? i = some c) (hcb : c ∈ blocks)
  (hn : t.nodes[i.index]? = some n) (hmov : Movable n.inst)
  (hload : n.inst.isMutableLoad = true → ∀ d ∈ blocks, Silent g (t.insts d))

include hg hcurrent h hloop hpre hc hcb hn hmov hload

theorem leads_hoist_steps (hinputs : n.inst.isDefinition = true → ∀ x ∈ n.inst.args, ∃ a, t.instBlock x = .ok (some a) ∧
    g.Dominates a p) : Leads True t (hoist i p) fun _ t' => Stepped g loops i p t t' := by
  unfold hoist
  rw [Leads.bind_iff, Leads.get_iff]
  cases hlast : t.lastInst p with
  | none => exact h.stepped i p
  | some last =>
    simp only
    rw [Leads.bind_iff, Leads.lift_iff]
    refine Yields.of_ok fun o ho => ?_
    obtain ⟨m, hm, rfl⟩ := opcode_eq_ok.mp ho
    split
    · exact h.stepped i p
    case isFalse hgoto =>
      have hgoto : m.inst.opcode = .goto := not_not.mp hgoto
      have hinst : t.inst i = .ok n.inst := inst_eq_ok.mpr ⟨n, hn, rfl⟩
      have henv : t.env last = .ok m.env := env_eq_ok.mpr ⟨m, hm, rfl⟩
      simp only [Leads.bind_iff, Leads.lift_iff, hinst, henv, Yields.ok_iff]
      split
      · exact h.stepped i p
      obtain ⟨front, hsplit⟩ := List.getLast?_eq_some_iff.mp hlast
      obtain ⟨n₀, hn₀, ⟨f, hf⟩, hsame⟩ := h.node_of hn
      obtain ⟨m₀, hm₀, ⟨f', hf'⟩, -⟩ := h.node_of hm
      have hmove : Moving g t.layout header blocks i n₀ c p front last := by
        refine {
          loop := hloop
          enters := h.enters hg hcurrent (hloop.reachable _ hloop.mem) hpre hlast hm hgoto
          preHeader := hpre
          home := hc
          mem := hcb
          node := hn₀
          movable := Movable.of_mapArgs hmov hf
          load := fun hl => hload (hf ▸ Inst.isMutableLoad_mapArgs.trans hl)
          split := hsplit
          goto := ⟨m₀, hm₀, by rwa [hf', Inst.opcode_mapArgs] at hgoto⟩
          inputs := fun hdef x hx m hm hterm => ?_ }
        rw [hsame hdef] at hinputs
        obtain ⟨a, ha, hdom⟩ := hinputs hdef x hx
        exact h.place_of_before hg (h.hoisted.inputs i n₀ c hn₀ hdef hc (hloop.reachable c hcb) x hx m hm hterm) ha hdom
      rw [Leads.bind_iff]
      refine ((leads_moveBefore h.hoisted.sound).and (Keeps.located_moveBefore t h.located)).mono ?_
      rintro _ _ ⟨⟨c', p', is, place, hne, hc', hp', rfl, rfl, -⟩, hlocated⟩
      obtain rfl := Option.some_inj.mp (hc.symm.trans hc')
      have hp : t.layout.home? last = some p := h.hoisted.sound.mem_iff.mp (List.mem_of_getLast? hlast)
      obtain rfl := Option.some_inj.mp (hp.symm.trans hp')
      have hlayout : (movedTo t i c p (Layout.putBefore last i ((t.layout.unplace i c).insts p)) place).layout =
          shifted t.layout i c p front last := by
        have hlast : last ∉ front := by
          have := h.hoisted.sound.nodup p
          rw [show t.layout.insts p = _ from hsplit] at this
          exact fun hmem => (List.nodup_append.mp this).2.2 last hmem last List.mem_cons_self rfl
        show (t.layout.unplace i c).place i p _ = (t.layout.unplace i c).place i p _
        rw [Layout.insts_unplace, if_neg hmove.ne, show t.layout.insts p = _ from hsplit, Layout.putBefore_last hlast]
      have hstep : Stepped g loops i p t
          (movedTo t i c p (Layout.putBefore last i ((t.layout.unplace i c).insts p)) place) := by
        refine ⟨⟨h.values.trans ?_, hlocated, hlayout ▸ hmove.hoisted hg h.hoisted⟩, fun j hj => ?_, fun d hd => ?_⟩
        · exact sameValues_movedTo
        · rw [hlayout, home?_shifted, if_neg hj]
        · unfold FlowGraph.insts
          rw [hlayout, hmove.insts_shifted h.hoisted.sound, if_neg hd]
          exact List.erase_subset
      split
      · rw [Leads.bind_iff]
        refine ((frame_sameValues.copyDeoptTarget).and (Keeps.located_copyDeoptTarget _ hlocated)).mono ?_
        rintro _ t' ⟨⟨hvalues, hsame⟩, hlocated'⟩
        exact hstep.same hvalues hsame hlocated'
      · exact hstep

theorem leads_hoistThroughPhi_steps (hdef : n.inst.isDefinition = false) :
    Leads True t (hoistThroughPhi i header p) fun _ t' => Stepped g loops i p t t' := by
  unfold hoistThroughPhi
  rw [Leads.bind_iff, Leads.get_iff, Leads.bind_iff, Leads.lift_iff]
  refine Yields.of_ok fun phi _ => ?_
  rw [Leads.bind_iff, Leads.lift_iff]
  refine Yields.of_ok fun place _ => ?_
  cases place with
  | none => exact h.stepped i p
  | some b =>
    simp only [Leads.bind_iff, Leads.lift_iff]
    refine Yields.of_ok fun inLoop _ => ?_
    split
    · exact h.stepped i p
    simp only [Leads.bind_iff, Leads.lift_iff]
    refine Yields.of_ok fun cls _ => ?_
    split
    · rw [Leads.bind_iff]
      exact leads_remove h hn hmov.1
    simp only [Leads.bind_iff, Leads.lift_iff]
    refine Yields.of_ok fun as _ => Yields.of_ok fun found _ => ?_
    cases found with
    | none => exact h.stepped i p
    | some k =>
      simp only [Leads.bind_iff, Leads.lift_iff]
      refine Yields.of_ok fun ps _ => ?_
      split
      · exact h.stepped i p
      rw [Leads.bind_iff]
      refine (leads_hoist_steps hg hcurrent h hloop hpre hc hcb hn hmov hload fun hyes => by simp [hdef] at hyes).mono
        fun moved t₁ h₁ => ?_
      split
      · exact h₁
      rw [Leads.bind_iff, Leads.get_iff, Leads.bind_iff, Leads.lift_iff]
      refine Yields.of_ok fun a _ => ?_
      rw [Leads.bind_iff]
      refine ((Leads.setArg_of_ok).and (Keeps.located_setArg t₁ h₁.carried.located)).mono ?_
      rintro _ _ ⟨⟨o, rfl⟩, hlocated⟩
      obtain ⟨n₀, hn₀, ⟨f, hf⟩, -⟩ := h.node_of hn
      obtain ⟨n₁, hn₁, ⟨f₁, hf₁⟩, -⟩ := h₁.carried.exists_node hn₀
      have hdef₁ : n₁.inst.isDefinition = false := by
        rw [hf₁, Inst.isDefinition_mapArgs, ← hdef, hf, Inst.isDefinition_mapArgs]
      have h₂ : Stepped g loops i p t (t₁.rewired i 0 o a) := h₁.same (sameValues_rewired hn₁ hdef₁) rfl hlocated
      rw [Leads.bind_iff, Leads.discard_iff]
      unfold Edit.setClass
      rw [Leads.bind_iff, Leads.get_iff, Leads.bind_iff, Leads.lift_iff]
      refine Yields.of_ok fun _ _ => ?_
      rw [Leads.bind_iff]
      refine Leads.mono (Leads.and (frame_sameValues.modifyNode ?_) (Keeps.located_modifyNode ?_ _ hlocated)) ?_
      · exact fun _ => rfl
      · exact fun _ => rfl
      rintro _ t₃ ⟨⟨hvalues, hlayout⟩, hlocated₃⟩
      exact h₂.same hvalues hlayout hlocated₃

end

theorem leads_visit_steps (hg : Definite g) (hcurrent : g.Current) (h : Carried g loops t)
    (hloop : g.IsLoop header blocks) (hpre : g.preHeader? header = .ok (some p)) (hc : t.layout.home? i = some c)
    (hcb : c ∈ blocks) (hload : written = false → ∀ d ∈ blocks, Silent g (t.insts d)) :
    Leads True t (visit header p written i) fun _ t' => Stepped g loops i p t t' := by
  unfold visit
  rw [Leads.bind_iff, Leads.get_iff, Leads.bind_iff, Leads.lift_iff]
  refine Yields.of_ok fun d hd => ?_
  obtain ⟨n, hn, rfl⟩ := inst_eq_ok.mp hd
  rw [Leads.bind_iff, Leads.lift_iff]
  refine Yields.of_ok fun movable hmovable => ?_
  split
  · exact h.stepped i p
  case isFalse hyes =>
    obtain rfl : movable = true := by simpa using hyes
    obtain ⟨hmov, hkind⟩ := movable_of_isMovable hmovable
    rw [Leads.bind_iff, Leads.lift_iff]
    refine Yields.of_ok fun invariant hinvariant => ?_
    split
    case isTrue hyes =>
      subst hyes
      refine leads_hoist_steps hg hcurrent h hloop hpre hc hcb hn hmov (fun hl => hload (hkind hl)) fun _ x hx => ?_
      have hx := allM_eq_true hinvariant x hx
      obtain ⟨place, hplace, hx⟩ := bind_eq_ok.mp hx
      cases place with
      | none => cases hx
      | some a =>
        refine ⟨a, hplace, ?_⟩
        obtain ⟨hreach, -⟩ := hcurrent.of_preHeader (hloop.reachable _ hloop.mem) hpre
        obtain ⟨r, hr, hiff⟩ := hcurrent.exactDominators.dominates a p hreach
        have hx : t.dominates a p = .ok true := hx
        rw [h.dominates_eq, hr] at hx
        exact hiff.mp (Except.ok.inj hx)
    case isFalse =>
      split
      case isTrue hop =>
        simp only [Leads.bind_iff, Leads.lift_iff]
        refine Yields.of_ok fun a _ => Yields.of_ok fun o _ => ?_
        split
        · refine leads_hoistThroughPhi_steps hg hcurrent h hloop hpre hc hcb hn hmov (fun hl => hload (hkind hl)) ?_
          rw [Inst.isDefinition, hop]
          rfl
        · exact h.stepped i p
      case isFalse => exact h.stepped i p

/-! ## The loops -/

theorem silent_of_mayWrite (h : Carried g loops t) (hwritten : mayWrite t blocks = .ok false) (hd : d ∈ blocks) :
    Silent g (t.insts d) := by
  intro j hj n hn
  have hread := anyM_eq_false (anyM_eq_false hwritten d hd) j hj
  obtain ⟨e, he, hread⟩ := bind_eq_ok.mp hread
  obtain ⟨n', hn', rfl⟩ := inst_eq_ok.mp he
  obtain ⟨m, hm, ⟨f, hf⟩, -⟩ := h.node_of hn'
  obtain rfl := Option.some_inj.mp (hn.symm.trans hm)
  rw [pure_eq_ok, hf, Inst.hasSideEffect_mapArgs] at hread
  exact hread

theorem isLoop_of_loopBlocks (h : Carried g loops t) (hloops : ∀ k ns blocks, loops header k = some ns →
    ns.mapM (blockAt g) = .ok blocks → g.IsLoop header blocks) (hblocks : loopBlocks t header = .ok blocks) :
    blocks = [] ∨ g.IsLoop header blocks := by
  obtain ⟨k', hk', hmap⟩ := bind_eq_ok.mp hblocks
  rw [block_eq_ok, h.blocks_eq, Option.map_eq_some_iff] at hk'
  obtain ⟨k, -, rfl⟩ := hk'
  cases hns : loops header k with
  | none =>
    rw [hns, Option.getD_none, List.mapM_nil, pure_eq_ok] at hmap
    exact .inl hmap.symm
  | some ns =>
    have hsame : blockAt t = blockAt g := by
      funext n
      unfold blockAt
      rw [h.values.preorder]
      rfl
    rw [hns, Option.getD_some, hsame] at hmap
    exact .inr (hloops k ns blocks hns hmap)

theorem leads_hoistLoop_carried (hg : Definite g) (hcurrent : g.Current) (h : Carried g loops t)
    (hloops : ∀ k ns blocks, loops header k = some ns → ns.mapM (blockAt g) = .ok blocks → g.IsLoop header blocks)
    (hpre : t.preHeader? header = .ok (some p)) (hreach : g.Reachable header) :
    Leads True t (hoistLoop header p) fun _ t' => Carried g loops t' := by
  rw [h.preHeader?_eq] at hpre
  unfold hoistLoop
  rw [Leads.bind_iff, Leads.get_iff, Leads.bind_iff, Leads.lift_iff]
  refine Yields.of_ok fun blocks hblocks => ?_
  rw [Leads.bind_iff, Leads.lift_iff]
  refine Yields.of_ok fun written hwritten => ?_
  obtain rfl | hloop := isLoop_of_loopBlocks h hloops hblocks
  · exact h
  obtain ⟨-, -, hne, hdom⟩ := hcurrent.of_preHeader hreach hpre
  have hout : p ∉ blocks := fun hmem => hne (hdom.antisymm (hloop.dominated p hmem) hreach)
  have hkeep : ∀ d ∈ blocks, d ≠ p := fun d hd heq => hout (heq ▸ hd)
  refine (Leads.anyChange (fun _ _ t' => Carried g loops t' ∧ ∀ d ∈ blocks, t'.insts d ⊆ t.insts d)
    ⟨h, fun _ _ => List.Subset.refl _⟩ fun done b rest _ t₁ hsplit h₁ => ?_).mono fun _ _ h' => h'.1
  have hb : b ∈ blocks := by simp [hsplit]
  rw [Leads.bind_iff, Leads.get_iff]
  -- What has not been looked at yet is still in the block.
  refine (Leads.anyChange (fun done _ t' => (Carried g loops t' ∧ ∀ d ∈ blocks, t'.insts d ⊆ t.insts d) ∧
    ∀ j ∈ t₁.insts b, j ∉ done → t'.layout.home? j = some b) ⟨h₁, fun j hj _ => ?_⟩ fun done i rest _ t₂ hsplit h₂ =>
    ?_).mono
      fun _ _ h' => h'.1
  · exact h₁.1.hoisted.sound.mem_iff.mp hj
  · obtain ⟨⟨hcarried, hsub⟩, hleft⟩ := h₂
    have hnodup : (done ++ i :: rest).Nodup := hsplit ▸ h₁.1.hoisted.sound.nodup b
    have hi : t₂.layout.home? i = some b :=
      hleft i (by simp [hsplit]) fun hmem => (List.nodup_append.mp hnodup).2.2 i hmem i List.mem_cons_self rfl
    refine (leads_visit_steps hg hcurrent hcarried hloop hpre hi hb fun hnot d hd j hj => ?_).mono fun _ t₃ h₃ => ?_
    · exact silent_of_mayWrite h (hnot ▸ hwritten) hd j (hsub d hd hj)
    · refine ⟨⟨h₃.carried, fun d hd => List.Subset.trans (h₃.only.insts d (hkeep d hd)) (hsub d hd)⟩, fun j hj hdone =>
        ?_⟩
      rw [List.mem_append, List.mem_singleton, not_or] at hdone
      rw [h₃.only.home j hdone.2]
      exact hleft j hj hdone.1

/-- The pass comes to all loops. -/
theorem hoistInvariants_of_ok (hg : Definite g) (hcurrent : g.Current) :
    Leads True g hoistInvariants fun _ g' => ∃ loops, Carried g loops g' := by
  unfold hoistInvariants
  rw [Leads.bind_iff]
  refine (FlowGraph.leads_computeLoops hcurrent).mono ?_
  rintro headers _ ⟨hsub, loops, rfl, hloops⟩
  refine (Leads.anyChange_of_forall (Carried g loops) (.start hg) fun header hheader t h => ?_).mono fun _ _ h =>
    ⟨loops, h⟩
  have hreach : g.Reachable header := hg.reachable_of_mem_order (List.mem_reverse.mpr (hsub hheader))
  rw [Leads.bind_iff, Leads.get_iff, Leads.bind_iff, Leads.lift_iff]
  refine Yields.of_ok fun preHeader hpre => ?_
  cases preHeader with
  | none => exact h
  | some p =>
    exact leads_hoistLoop_carried hg hcurrent h (fun k ns blocks => hloops header hheader k ns blocks hreach) hpre
      hreach

end Hoisting

end Midend
