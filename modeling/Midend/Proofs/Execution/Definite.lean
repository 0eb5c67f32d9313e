import Midend.Proofs.Defined
import Midend.Proofs.Execution

/-! # Graphs that execute what they define

A graph in SSA form that the check finds nothing wrong with. Each of its definitions has one place where it is
evaluated, and whatever reads it comes behind that place on every path.
-/

namespace Midend.Execution

open Midend.Flow FlowGraph Ssa

variable {g : FlowGraph} {b c : BlockId} {d i : InstId} {n : Node} {front rest : List InstId}

/-- The graph gives `d` a value: at the start, in a block, or on the way into one. -/
def Evaluates (g : FlowGraph) (d : InstId) : Prop :=
  d ∈ g.initialDefinitions ∨ (∃ b, d ∈ g.insts b) ∨ ∃ b, LivePhi g b d

/-- A graph in SSA form that the check accepts. Its orders and dominators are up to date, its phis and initial
definitions are in no list, its entry is empty and no edge leads there, and nothing stands in for what it evaluates. -/
structure Definite (g : FlowGraph) : Prop where
  located : g.Located
  upToDate : g.UpToDate
  phisApart : g.PhisApart
  consistent : g.Consistent
  entry : g.insts graphEntry = []
  isolated : ∀ b, g.Reachable b → ¬ g.Edge b graphEntry
  initial : ∀ d ∈ g.initialDefinitions, ∃ n, g.nodes[d.index]? = some n ∧ n.inst.isGiven = true ∧ g.isPlaced d = false
  unreplaced : ∀ d n, Evaluates g d → g.nodes[d.index]? = some n → n.replacement = none

theorem live_iff : d ∈ g.live b ↔ ∃ ps, g.livePhis b = .ok ps ∧ LivePhi g b d := by
  rw [mem_live_iff]
  exact exists_congr fun ps => and_congr_right fun h => mem_livePhis_iff h

namespace Definite

variable (hg : Definite g)

include hg

theorem reads : g.ReadsDefined (· ≠ graphEntry) where
  inputs _ hpath hb _ _ _ hsplit :=
    inputs_defined hg.located hg.upToDate hg.phisApart (consistent_iff.mp hg.consistent) hpath hb hsplit
  edges _ _ hpath hedge :=
    edges_defined hg.located hg.upToDate hg.phisApart (consistent_iff.mp hg.consistent) hpath hedge

theorem mem_order (hb : g.Reachable b) : b ∈ g.reversePostorder := hg.upToDate.exact.1 b hb

theorem reachable_of_mem_order (hb : b ∈ g.reversePostorder) : g.Reachable b := hg.upToDate.reachable_of_mem_order hb

theorem nodup_order : g.reversePostorder.Nodup := by
  obtain ⟨frontier, g', hrun, horders⟩ := hg.upToDate
  obtain ⟨t, ht, -, rfl⟩ := (leads_dominators (.inl trivial)).post_of_ok hrun
  rw [reversePostorder, List.nodup_reverse, ← (Prod.mk.inj horders).1]
  exact ht.opened.nodup_iff.mpr ht.nodup

theorem edge_of_mem_preds (hb : g.Reachable b) (hc : c ∈ predsOf g b) : g.Reachable c ∧ g.Edge c b := by
  obtain ⟨frontier, g', hrun, horders⟩ := hg.upToDate
  obtain ⟨t, ht, -, rfl⟩ := (leads_dominators (.inl trivial)).post_of_ok hrun
  have hpreds : predsOf g b = t.preds b := by
    have hblocks := congrArg (fun l => (l[b.index]?).map Prod.fst) (Prod.mk.inj horders).2
    simp only [Array.getElem?_toList, List.getElem?_map, Option.map_map] at hblocks
    have hplaced : (((onTour g t).mapBlocks (t.placed t.preorder)).blocks[b.index]?).map Block.preds =
        (t.blocks[b.index]?).map Block.preds := by
      rw [blocks_mapBlocks, Option.map_map]
      show (t.blocks[b.index]?).map _ = _
      congr 1
      funext k
      simp only [Function.comp_apply, Tour.placed]
      split <;> rfl
    unfold predsOf Tour.preds
    rw [if_pos (ht.mem_preorder_iff_reachable.mpr hb), ← hplaced]
    exact congrArg (·.getD []) hblocks.symm
  rw [hpreds] at hc
  have hc' := ht.known b c hc
  refine ⟨ht.mem_preorder_iff_reachable.mp hc', ?_⟩
  have hcount := ht.taken c (ht.opened.symm.subset hc') b
  exact List.count_pos_iff.mp (hcount ▸ List.count_pos_iff.mpr hc)

theorem preds_graphEntry : predsOf g graphEntry = [] := by
  rw [List.eq_nil_iff_forall_not_mem]
  intro b hb
  obtain ⟨hreach, hedge⟩ := hg.edge_of_mem_preds .refl hb
  exact hg.isolated b hreach hedge

theorem block_holds (hb : g.Reachable b) : g.BlockHolds b :=
  (consistent_iff.mp hg.consistent).blocks b (hg.mem_order hb)

/-! ## Instructions -/

theorem ne_graphEntry (hi : i ∈ g.insts b) : b ≠ graphEntry := by
  rintro rfl
  rw [hg.entry] at hi
  cases hi

theorem inst_holds (hb : g.Reachable b) (hi : i ∈ g.insts b) :
    ∃ n last, g.nodes[i.index]? = some n ∧ g.lastInst b = some last ∧ g.InstHolds b last i n := by
  obtain ⟨last, hlast, hall⟩ := (hg.block_holds hb).insts (hg.ne_graphEntry hi)
  obtain ⟨n, hn, hholds⟩ := hall i hi
  exact ⟨n, last, hn, hlast, hholds⟩

theorem isPlaced_of_mem (hi : i ∈ g.insts b) : g.isPlaced i = true :=
  Layout.isPlaced_iff.mpr ⟨b, hg.located.mem_insts_iff.mp hi⟩

theorem block_unique (hb : i ∈ g.insts b) (hc : i ∈ g.insts c) : b = c := hg.located.sound.block_unique hb hc

theorem lt_size (hi : i ∈ g.insts b) : i.index < g.nodes.size :=
  hg.located.bounded i b (hg.located.mem_insts_iff.mp hi)

theorem not_initial (hi : i ∈ g.insts b) : i ∉ g.initialDefinitions := by
  intro hinitial
  obtain ⟨n, -, -, hplaced⟩ := hg.initial i hinitial
  rw [hg.isPlaced_of_mem hi] at hplaced
  cases hplaced

theorem split_unique (hsplit : g.insts b = front ++ i :: rest) {front' rest' : List InstId}
    (hsplit' : g.insts b = front' ++ i :: rest') : front = front' ∧ rest = rest' :=
  hg.located.sound.split_unique hsplit hsplit'

theorem rest_of_terminator (hb : g.Reachable b) (hsplit : g.insts b = front ++ i :: rest)
    (hn : g.nodes[i.index]? = some n) (hterm : n.inst.isTerminator = true) : rest = [] := by
  have hi : i ∈ g.insts b := by simp [hsplit]
  obtain ⟨m, last, hm, hlast, hholds⟩ := hg.inst_holds hb hi
  obtain rfl := Option.some_inj.mp (hn.symm.trans hm)
  obtain rfl := hholds.terminates.mp hterm
  obtain ⟨front', hsplit'⟩ := List.getLast?_eq_some_iff.mp hlast
  exact (hg.split_unique hsplit hsplit').2

theorem edge_of_terminator (hb : g.Reachable b) (hi : i ∈ g.insts b) (hn : g.nodes[i.index]? = some n)
    (hterm : n.inst.isTerminator = true) (hc : c ∈ n.inst.successors) : g.Edge b c := by
  obtain ⟨m, last, hm, hlast, hholds⟩ := hg.inst_holds hb hi
  obtain rfl := Option.some_inj.mp (hn.symm.trans hm)
  obtain rfl := hholds.terminates.mp hterm
  unfold FlowGraph.Edge
  rwa [next_of_ok (SsaForm.succs_of_last (hg.ne_graphEntry hi) hlast hn)]

/-! ## Phis -/

theorem live_of_livePhi (hb : g.Reachable b) (hphi : LivePhi g b d) : d ∈ g.live b := by
  obtain ⟨ps, hps, -⟩ := (hg.block_holds hb).phis
  exact live_iff.mpr ⟨ps, hps, hphi⟩

theorem phi_holds (hb : g.Reachable b) (hphi : LivePhi g b d) : g.PhiHolds b d := by
  obtain ⟨ps, hps, hall⟩ := (hg.block_holds hb).phis
  exact hall d ((mem_livePhis_iff hps).mpr hphi)

omit hg in
theorem exists_alive (hphi : LivePhi g b d) : ∃ n, g.nodes[d.index]? = some n ∧ n.inst.isAlivePhi = true :=
  aliveIn_iff.mp hphi.2

theorem not_placed_of_livePhi (hphi : LivePhi g b d) : d ∉ g.insts c := by
  intro hd
  obtain ⟨n, hn, halive⟩ := exists_alive hphi
  exact hg.phisApart.opcode_ne_phi hg.located hd hn (Inst.opcode_of_isPhi (Inst.isPhi_of_isAlivePhi halive))

theorem isPlaced_of_livePhi (hphi : LivePhi g b d) : g.isPlaced d = false := by
  rw [Bool.eq_false_iff]
  intro hplaced
  obtain ⟨a, ha⟩ := Layout.isPlaced_iff.mp hplaced
  exact hg.not_placed_of_livePhi hphi (hg.located.mem_insts_iff.mpr ha)

theorem not_initial_of_livePhi (hphi : LivePhi g b d) : d ∉ g.initialDefinitions := by
  intro hinitial
  obtain ⟨n, hn, halive⟩ := exists_alive hphi
  obtain ⟨m, hm, hgiven, -⟩ := hg.initial d hinitial
  obtain rfl := Option.some_inj.mp (hn.symm.trans hm)
  obtain ⟨slot, as, r, heq⟩ := Inst.eq_phi_of_isAlivePhi halive
  rw [heq] at hgiven
  cases hgiven

theorem preds_ne_nil (hb : g.Reachable b) (hphi : LivePhi g b d) {ps : List BlockId} (hps : g.preds b = .ok ps) :
    ps ≠ [] := by
  cases hb with
  | refl =>
    have := hg.live_of_livePhi .refl hphi
    rw [hg.phisApart.entry] at this
    cases this
  | @tail a _ ha hedge =>
    obtain ⟨ss, hss, hedges⟩ := (hg.block_holds ha).edges
    have hmem : b ∈ ss := by
      have hnext : b ∈ g.next a := hedge
      rwa [next_of_ok hss] at hnext
    obtain ⟨ps', hps', hmem⟩ := hedges b hmem
    obtain rfl := Except.ok.inj (hps.symm.trans hps')
    exact List.ne_nil_of_mem hmem

theorem block_of_livePhi (hb : g.Reachable b) (hphi : LivePhi g b d) (hn : g.nodes[d.index]? = some n) :
    n.block = some b := by
  obtain ⟨⟨as, ps, has, hps, hlen⟩, m, hm, hoperands⟩ := hg.phi_holds hb hphi
  obtain rfl := Option.some_inj.mp (hn.symm.trans hm)
  obtain ⟨m, hm, rfl⟩ := args_eq_ok.mp has
  obtain rfl := Option.some_inj.mp (hn.symm.trans hm)
  have hpos : 0 < n.inst.args.length := hlen ▸ List.length_pos_of_ne_nil (hg.preds_ne_nil hb hphi hps)
  have harrives := (hoperands.inputs 0 _ (List.getElem?_eq_getElem hpos)).arrives
  obtain ⟨k, hk, hmem⟩ := exists_of_mem_phisOf hphi.1
  obtain hblock | hnone | ⟨a, ha⟩ := (hg.located.phis b d ⟨k, hk, hmem⟩).2 n hn
  · exact hblock
  · obtain ⟨m, hm, halive⟩ := exists_alive hphi
    obtain rfl := Option.some_inj.mp (hn.symm.trans hm)
    unfold inputArrives at harrives
    rw [opcode_eq_ok.mpr ⟨n, hn, Inst.opcode_of_isPhi (Inst.isPhi_of_isAlivePhi halive)⟩,
      instBlock_eq_ok.mpr ⟨n, hn, rfl⟩] at harrives
    simp [hnone, bind, Except.bind, pure, Except.pure] at harrives
  · exact absurd (hg.located.mem_insts_iff.mpr ha) (hg.not_placed_of_livePhi hphi)

theorem phi_unique (hb : g.Reachable b) (hc : g.Reachable c) (hphi : LivePhi g b d) (hphi' : LivePhi g c d) :
    b = c := by
  obtain ⟨n, hn, -⟩ := exists_alive hphi
  exact Option.some_inj.mp ((hg.block_of_livePhi hb hphi hn).symm.trans (hg.block_of_livePhi hc hphi' hn))

/-! ## Inputs -/

theorem evaluates_of_present (h : g.isPresent d = .ok true) : Evaluates g d := by
  obtain ⟨n, a, hn, -, hinitial | hplaced | ⟨-, halive, k, hk, hmem⟩⟩ := hg.located.cases_present h
  · exact .inl hinitial
  · exact .inr (.inl ⟨a, hplaced⟩)
  · exact .inr (.inr ⟨a, by rwa [phisOf_eq hk], aliveIn_iff.mpr ⟨n, hn, halive⟩⟩)

theorem evaluates_input (hb : g.Reachable b) (hi : i ∈ g.insts b ∨ LivePhi g b i) (hn : g.nodes[i.index]? = some n)
    (hd : d ∈ n.inst.args) : Evaluates g d := by
  obtain ⟨k, hk⟩ := List.mem_iff_getElem?.mp hd
  obtain hi | hi := hi
  · obtain ⟨m, last, hm, -, hholds⟩ := hg.inst_holds hb hi
    obtain rfl := Option.some_inj.mp (hn.symm.trans hm)
    exact hg.evaluates_of_present (hholds.operands.inputs k d hk).present
  · obtain ⟨-, m, hm, hoperands⟩ := hg.phi_holds hb hi
    obtain rfl := Option.some_inj.mp (hn.symm.trans hm)
    exact hg.evaluates_of_present (hoperands.inputs k d hk).present

/-- What a phi takes on an edge has been evaluated at its start. -/
theorem evaluated_on_edge {path : List BlockId} {phi : InstId} {k : Nat} (hpath : g.IsPath path)
    (hedge : g.Edge (path.headD graphEntry) c) (hphi : LivePhi g c phi)
    (hk : (predsOf g c)[k]? = some (path.headD graphEntry)) (hinput : inputOf g phi k = some i) :
    i ∈ g.initialDefinitions ∨ i ∈ g.arrived path ++ g.insts (path.headD graphEntry) := by
  obtain ⟨ps, hps, -, hall⟩ := hg.reads.edges path c hpath hedge
  obtain ⟨as, has, hdefined⟩ := hall phi (hg.live_of_livePhi (hpath.reachable.tail hedge) hphi)
  obtain ⟨n, hn, hj⟩ := Option.bind_eq_some_iff.mp hinput
  obtain ⟨n', hn', rfl⟩ := args_eq_ok.mp has
  obtain rfl := Option.some_inj.mp (hn.symm.trans hn')
  obtain ⟨k', hk', rfl⟩ := preds_eq_ok.mp hps
  obtain ⟨i', hi', hwhere⟩ := hdefined k (by simpa [predsOf, hk'] using hk)
  obtain rfl := Option.some_inj.mp (hj.symm.trans hi')
  exact hwhere

theorem lt_size_of_evaluates (h : Evaluates g d) : d.index < g.nodes.size := by
  obtain h | ⟨b, h⟩ | ⟨b, h⟩ := h
  · obtain ⟨n, hn, -⟩ := hg.initial d h
    exact (Array.getElem?_eq_some_iff.mp hn).1
  · exact hg.lt_size h
  · obtain ⟨n, hn, -⟩ := exists_alive h
    exact (Array.getElem?_eq_some_iff.mp hn).1

end Definite

/-! ## Computed forms -/

/-- A graph whose discovered blocks are closed under edges, and in which all that SSA form asks for is to be seen. -/
@[mk_iff]
structure FormSeen (g : FlowGraph) : Prop where
  consistent : g.Consistent
  layout : g.layout.Sound
  entry : graphEntry ∈ g.reversePostorder
  edges : ∀ b ∈ g.reversePostorder, ∀ c ∈ g.next b, c ∈ g.reversePostorder ∧ c ≠ graphEntry
  initial : ∀ d ∈ g.initialDefinitions, ∃ n ∈ g.nodes[d.index]?, n.inst.isGiven = true
  phis : ∀ b < g.blocks.size, ∀ phi ∈ phisOf g ⟨b⟩, ∃ n ∈ g.nodes[phi.index]?, n.inst.isPhi = true ∧ n.block = some ⟨b⟩
  joins : ∀ b < g.blocks.size, ∀ k ∈ g.blocks[b]?, k.phis ≠ [] → k.kind = .join
  gotos : ∀ b ∈ g.reversePostorder, ∀ i ∈ g.lastInst b, ∀ n ∈ g.nodes[i.index]?, ∀ c ∈ n.inst.successors,
    ∀ k ∈ g.blocks[c.index]?, k.kind = .join → n.inst.opcode = .goto

instance : Decidable (FormSeen g) := decidable_of_iff _ (formSeen_iff g).symm

namespace FormSeen

theorem mem_order (h : FormSeen g) (hb : g.Reachable b) : b ∈ g.reversePostorder := by
  induction hb with
  | refl => exact h.entry
  | tail _ hedge ih => exact (h.edges _ ih _ hedge).1

theorem form (h : FormSeen g) : SsaForm g where
  consistent := h.consistent
  layout := h.layout
  discovered _ hb := h.mem_order hb
  entry b hb hedge := (h.edges b (h.mem_order hb) _ hedge).2 rfl
  initial := h.initial
  phis b phi hphi := by
    obtain ⟨k, hk, -⟩ := exists_of_mem_phisOf hphi
    exact h.phis b.index (Array.getElem?_eq_some_iff.mp hk).1 phi hphi
  joins b k hk := h.joins b.index (Array.getElem?_eq_some_iff.mp hk).1 k hk
  gotos b c i n k hb hlast hn hc hk hjoin := by
    have hop := h.gotos b (h.mem_order hb) i hlast n hn c hc k hk hjoin
    cases hd : n.inst with
    | goto target =>
      rw [hd] at hc
      rw [List.mem_singleton.mp hc]
    | branch => simp [hd, Inst.opcode] at hop
    | _ => simp [hd, Inst.successors] at hc

end FormSeen

/-- A graph in which all that `Definite` asks for is to be seen. -/
@[mk_iff]
structure DefiniteSeen (g : FlowGraph) : Prop where
  located : g.Located
  upToDate : g.UpToDate
  phisApart : g.PhisApart
  consistent : g.Consistent
  entry : g.insts graphEntry = []
  edges : ∀ b ∈ g.reversePostorder, graphEntry ∉ g.next b
  initial : ∀ d ∈ g.initialDefinitions, ∃ n ∈ g.nodes[d.index]?, n.inst.isGiven = true ∧ g.isPlaced d = false
  unreplaced : ∀ n ∈ g.nodes, n.replacement = none

instance : Decidable (DefiniteSeen g) := decidable_of_iff _ (definiteSeen_iff g).symm

theorem DefiniteSeen.definite (h : DefiniteSeen g) : Definite g where
  located := h.located
  upToDate := h.upToDate
  phisApart := h.phisApart
  consistent := h.consistent
  entry := h.entry
  isolated b hb := h.edges b (h.upToDate.exact.1 b hb)
  initial := h.initial
  unreplaced _ n _ hn := h.unreplaced n (Array.mem_of_getElem? hn)

end Midend.Execution
