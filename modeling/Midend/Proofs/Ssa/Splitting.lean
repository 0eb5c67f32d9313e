import Midend.Proofs.Execution
import Midend.Proofs.Flow.Frontiers
import Midend.Proofs.Ssa.Sound

/-! # Which edges are split

Construction takes a graph whose blocks end in terminators, whose gotos lead to joins and whose branches lead to
targets. It does not count the edges into a target. It only refuses a target in which the values of some local
variable would meet, because the target cannot have the phi.
-/

/-! ## The form of a constructed graph

Construction leaves a graph in SSA form: joins have all the phis, and gotos alone lead to them.
-/

namespace Midend.Ssa

open Midend.Flow Execution

variable {r g₀ g g' : FlowGraph} {t : Tour} {init : Frame} {s : Names} {out : BlockId → Frame} {L D : List InstId}
  {null i : InstId} {b c : BlockId}

section Finished

variable (h : AllRenamed r t g₀ init s g out) (hf : Finished t g L D null g')

include h hf

theorem edge_finished (hb : b ∈ t.preorder) : g'.Edge b c ↔ r.Edge b c := by
  unfold FlowGraph.Edge
  rw [FlowGraph.next_of_ok (succs_finished h hf hb)]

theorem mem_preorder_finished (hb : g'.Reachable b) : b ∈ t.preorder := by
  induction hb with
  | refl => exact h.base.touring.mem_preorder_iff_reachable.mpr .refl
  | tail _ hedge ih => exact h.base.touring.mem_of_edge ih ((edge_finished h hf ih).mp hedge)

theorem phi_finished (hi : i ∈ phisOf g' b) : i ∈ phisOf g₀ b ∧ i ∈ L := by
  obtain ⟨k', hk', hmem⟩ := exists_of_mem_phisOf hi
  have hblock := hf.blocks b
  rw [hk', h.progress.outline.blocks] at hblock
  obtain ⟨k, hk, rfl⟩ := Option.map_eq_some_iff.mp hblock.symm
  have hb : b ∈ t.preorder := (h.base.phi b k hk i (List.mem_of_mem_filter hmem)).2.1
  exact (mem_phisOf_finished h hf hb).mp hi

theorem kind_finished {k : Block} (hk : g'.blocks[b.index]? = some k) :
    (t.blocks[b.index]?).map Block.kind = some k.kind := by
  have hblock := hf.blocks b
  rw [hk, h.progress.outline.blocks] at hblock
  obtain ⟨k₀, hk₀, rfl⟩ := Option.map_eq_some_iff.mp hblock.symm
  exact h.base.kind b k₀ hk₀

theorem goto_finished (hb : b ∈ t.preorder) (hlast : g'.lastInst b = some i) {n : Node}
    (hn : g'.nodes[i.index]? = some n) (hc : c ∈ n.inst.successors) {k : Block} (hk : g'.blocks[c.index]? = some k)
    (hjoin : k.kind = .join) : n.inst = .goto c := by
  have hmem : i ∈ r.insts b := h.mem_built (insts_finished hf ▸ List.mem_of_getLast? hlast)
  have hne : b ≠ FlowGraph.graphEntry := h.base.ne_graphEntry hmem
  obtain ⟨i₀, n₀, hlast₀, hn₀, hterm, hkinds⟩ := h.base.split b hb hne
  have hlast' : g'.lastInst b = some i₀ := by
    rw [FlowGraph.lastInst, hf.layout]
    exact lastInst_eq h.base h.progress hlast₀ hn₀ (Inst.isLocal_of_isTerminator hterm)
  obtain rfl := Option.some_inj.mp (hlast.symm.trans hlast')
  obtain ⟨m, hm, ⟨f, hinst⟩, -⟩ := exists_built h hf hn₀
  obtain rfl := Option.some_inj.mp (hn.symm.trans hm)
  have hkind := hkinds c (by rwa [hinst, Inst.successors_mapArgs] at hc)
  rw [kind_finished h hf hk, hjoin, Option.some_inj, ← Inst.opcode_mapArgs (f := f), ← hinst] at hkind
  cases hd : n.inst with
  | goto target =>
    rw [hd] at hc
    rw [List.mem_singleton.mp hc]
  | branch => simp [hd, Inst.opcode] at hkind
  | _ => simp [hd, Inst.successors] at hc

theorem form_finished (hone : ∀ b ∈ t.preorder, EndsOnce r b) : SsaForm g' where
  consistent := FlowGraph.consistent_iff.mpr (holds_finished h hf hone)
  layout := hf.layout ▸ h.progress.layout
  discovered b hb := by
    rw [FlowGraph.reversePostorder, List.mem_reverse, hf.postorder]
    simpa using h.base.touring.opened.mem_iff.mpr (mem_preorder_finished h hf hb)
  entry b hb hedge := by
    have hedge := (edge_finished h hf (mem_preorder_finished h hf hb)).mp hedge
    exact (h.base.raw.handle_of_mem_next h.base.catchEntries hedge).2 rfl
  initial d hd := by
    obtain ⟨m, hm, -, hgiven, -⟩ := exists_initial h hf hd
    exact ⟨m, hm, hgiven⟩
  phis b phi hphi := by
    obtain ⟨hmem, hlive⟩ := phi_finished h hf hphi
    obtain ⟨m, hm, hblock, halive, -⟩ := exists_phi h hf hmem hlive
    exact ⟨m, hm, Inst.isPhi_of_isAlivePhi halive, hblock⟩
  joins b k hk hne := by
    obtain ⟨phi, hphi⟩ := List.exists_mem_of_ne_nil _ hne
    obtain ⟨hmem, -⟩ := phi_finished h hf (b := b) (by rwa [phisOf_eq hk])
    obtain ⟨-, -, hjoin, -⟩ := h.base.phi_of_mem hmem
    exact Option.some_inj.mp ((kind_finished h hf hk).symm.trans hjoin)
  gotos b c i n k hb hlast hn hc hk hjoin := goto_finished h hf (mem_preorder_finished h hf hb) hlast hn hc hk hjoin

end Finished

/-- A graph that construction gives is in SSA form, unless control could not get past the middle of some block. -/
theorem construct_form (h : Built b r) (hone : ∀ c, r.Reachable c → EndsOnce r c)
    (hrun : Ssa.construct.run r = .ok (.ok (), g)) : SsaForm g := by
  obtain ⟨result, g', hrun', hpost⟩ := (gives_construct h.raw.1).exists_ok
  obtain ⟨rfl, rfl⟩ := Prod.mk.inj (Except.ok.inj (hrun.symm.trans hrun'))
  obtain ⟨p, t, g₀, init, s, g₁, out, L, D, null, -, -, -, hall, hfin⟩ := hpost () rfl
  exact form_finished hall hfin fun c hc => hone c (hall.base.touring.mem_preorder_iff_reachable.mp hc)

/-- Whether nothing but the last instruction of a block ends it, computed. -/
def endsOnce (r : FlowGraph) : Bool :=
  (List.range r.blocks.size).all fun c => (r.insts ⟨c⟩).dropLast.all fun i =>
    (r.nodes[i.index]?).all fun n => !n.inst.isTerminator

theorem endsOnce_of_computed (h : Built b r) (hends : endsOnce r = true) (c : BlockId) : EndsOnce r c := by
  intro front i back hsplit hback n hn
  have hraw : Raw r := h.raw.1
  have hi : i ∈ r.insts c := by simp [hsplit]
  obtain ⟨c', -, hhome, hhandle⟩ := hraw.home i n hn
  obtain rfl := Option.some_inj.mp ((hraw.layout.mem_iff.mp hi).symm.trans hhome)
  have hfront : i ∈ (r.insts c).dropLast := by
    rw [hsplit, List.dropLast_append_of_ne_nil (List.cons_ne_nil i back), List.dropLast_cons_of_ne_nil hback]
    simp
  have hthis := List.all_eq_true.mp (List.all_eq_true.mp hends c.index (List.mem_range.mpr hhandle.1)) i hfront
  simpa [hn] using hthis

end Midend.Ssa

namespace Midend

open Midend.Flow Execution

namespace FlowGraph

variable {g : FlowGraph} {a c : BlockId}

/-- Two values of the local variable may arrive at the block: it is in the frontier of a block that stores to the
variable, or of one where values of it meet. -/
inductive Meets (g : FlowGraph) (slot : Nat) : BlockId → Prop
  | store {a c : BlockId} {i v : InstId} {n : Node} (hi : i ∈ g.insts a) (hn : g.nodes[i.index]? = some n)
      (hstore : n.inst = .storeLocal slot v) (hc : g.InFrontier a c) : Meets g slot c
  | again {a c : BlockId} (ha : Meets g slot a) (hc : g.InFrontier a c) : Meets g slot c

/-- The number of edges from discovered blocks to a block. -/
def edgesInto (g : FlowGraph) (c : BlockId) : Nat := (g.preorder.flatMap g.next).count c

theorem edgesInto_pos (ha : a ∈ g.preorder) (hedge : g.Edge a c) : 0 < g.edgesInto c :=
  List.count_pos_iff.mpr (List.mem_flatMap.mpr ⟨a, ha, hedge⟩)

end FlowGraph

namespace Ssa

variable {r p g : FlowGraph} {t : Tour} {a b c : BlockId} {m n v : Nat}

theorem mem_frontiers_of_inFrontier (ht : Touring r t []) (hentry : c ≠ FlowGraph.graphEntry) (h : r.InFrontier a c)
    (hm : t.preorder[m]? = some a) (hn : t.preorder[n]? = some c) :
    n ∈ (frontiers t.predNumbers t.tree).getD m [] :=
  (mem_frontiers_iff_inFrontier ht hm hn).mpr ⟨h, one_lt_preds_of_inFrontier ht hentry h⟩

theorem phiFor_of_meets (hp : PhisPlaced r t p) (hv : v < r.parameterCount + r.localCount) (h : r.Meets v c) :
    PhiFor p c v := by
  have ht := hp.base.touring
  have hnumber {b : BlockId} (hb : r.Reachable b) : ∃ n, t.preorder[n]? = some b :=
    List.mem_iff_getElem?.mp (ht.mem_preorder_iff_reachable.mpr hb)
  have hentry {a b : BlockId} (hb : r.InFrontier a b) : b ≠ FlowGraph.graphEntry := by
    obtain ⟨q, -, hedge, -⟩ := hb
    exact (hp.base.raw.handle_of_mem_next hp.base.catchEntries hedge).2
  induction h with
  | @store a c i w n hi hn hstore hc =>
    obtain ⟨m, hm⟩ := hnumber hc.reachable.1
    obtain ⟨k, hk⟩ := hnumber hc.reachable.2
    have hstores : Stores t m v := by
      obtain ⟨slots, hslots, hcovers⟩ := ht.assigned m a hm
      have hcontains := (hcovers (v % 0x100000000)).mpr ⟨i, hi, n, v, w, hn, hstore, rfl⟩
      unfold Stores
      rwa [Array.getD_eq_getD_getElem?, hslots]
    exact hp.meets v hv k m a c hm hk (.inl hstores) (mem_frontiers_of_inFrontier ht (hentry hc) hc hm hk)
  | @again a c _ hc ih =>
    obtain ⟨m, hm⟩ := hnumber hc.reachable.1
    obtain ⟨k, hk⟩ := hnumber hc.reachable.2
    exact hp.meets v hv k m a c hm hk (.inr ih) (mem_frontiers_of_inFrontier ht (hentry hc) hc hm hk)

section Finished

variable {g₀ g' : FlowGraph} {init : Frame} {names : Names} {out : BlockId → Frame} {L D : List InstId} {null : InstId}

theorem split_finished (h : AllRenamed r t g₀ init names g out) (hf : Finished t g L D null g') (hb : b ∈ t.preorder)
    (hne : b ≠ FlowGraph.graphEntry) :
    ∃ i n, g'.lastInst b = some i ∧ g'.nodes[i.index]? = some n ∧ n.inst.isTerminator = true ∧
      ∀ s ∈ n.inst.successors, s ∈ t.preorder ∧
        g'.kind s = .ok (if n.inst.opcode = .branch then .target else .join) := by
  obtain ⟨i, n₀, hlast₀, hn₀, hterm, hkinds⟩ := h.base.split b hb hne
  obtain ⟨n, hn, ⟨f, hinst⟩, -⟩ := exists_built h hf hn₀
  have hlast : g'.lastInst b = some i := by
    rw [FlowGraph.lastInst, hf.layout]
    exact lastInst_eq h.base h.progress hlast₀ hn₀ (Inst.isLocal_of_isTerminator hterm)
  have hopcode : n.inst.opcode = n₀.inst.opcode := by rw [hinst, Inst.opcode_mapArgs]
  have hsuccs : n.inst.successors = n₀.inst.successors := by rw [hinst, Inst.successors_mapArgs]
  refine ⟨i, n, hlast, hn, ?_, fun s hs => ?_⟩
  · rwa [Inst.isTerminator, hopcode]
  have hs₀ : s ∈ n₀.inst.successors := hsuccs ▸ hs
  have hedge : r.Edge b s := by
    refine (edge_finished h hf hb).mp ?_
    show s ∈ g'.next b
    rwa [FlowGraph.next_of_ok (SsaForm.succs_of_last hne hlast hn)]
  have hmem : s ∈ t.preorder := h.base.touring.mem_of_edge hb hedge
  obtain ⟨k, hk, -⟩ := exists_block_finished h hf hmem
  have hkind : some k.kind = some (if n.inst.opcode = .branch then .target else .join) := by
    rw [← kind_finished h hf hk, hkinds s hs₀, hopcode]
  refine ⟨hmem, ?_⟩
  unfold FlowGraph.kind
  rw [FlowGraph.block_eq_ok.mpr hk, ← Option.some_inj.mp hkind]
  rfl

end Finished

/-- The block ends in a terminator. A goto leads to a join, and a branch to targets in which no values of a local
variable of `r` meet. -/
def EdgesSplit (r g : FlowGraph) (c : BlockId) : Prop :=
  ∃ i n, g.lastInst c = some i ∧ g.nodes[i.index]? = some n ∧ n.inst.isTerminator = true ∧
    (∀ s, n.inst = .goto s → g.kind s = .ok .join) ∧
    ∀ cond onTrue onFalse, n.inst = .branch cond onTrue onFalse → ∀ s ∈ [onTrue, onFalse],
      g.kind s = .ok .target ∧ 0 < g.edgesInto s ∧ ∀ v < r.parameterCount + r.localCount, ¬ r.Meets v s

/-- What a graph that is not given up looks like at the end of each block. Nothing is said about how many edges lead
to a target. -/
theorem construct_splits_edges (h : Built b r) (hrun : Ssa.construct.run r = .ok (.ok (), g)) (hc : c ∈ g.preorder)
    (hne : c ≠ FlowGraph.graphEntry) : EdgesSplit r g c := by
  obtain ⟨result, g', hrun', hpost⟩ := (gives_construct h.raw.1).exists_ok
  obtain ⟨rfl, rfl⟩ := Prod.mk.inj (Except.ok.inj (hrun.symm.trans hrun'))
  obtain ⟨p, t, g₀, init, names, g₁, out, L, D, null, -, hp, -, hall, hfin⟩ := hpost () rfl
  obtain ⟨i, n, hlast, hn, hterm, hsuccs⟩ := split_finished hall hfin (hfin.preorder ▸ hc) hne
  refine ⟨i, n, hlast, hn, hterm, fun s hs => ?_, fun cond onTrue onFalse hbranch s hs => ?_⟩
  · have hkind := (hsuccs s (by simp [hs, Inst.successors])).2
    rwa [hs] at hkind
  have hmem : s ∈ n.inst.successors := by rwa [hbranch]
  obtain ⟨hst, hkind⟩ := hsuccs s hmem
  have hkind : g.kind s = .ok .target := by rwa [hbranch] at hkind
  refine ⟨hkind, FlowGraph.edgesInto_pos hc ?_, fun v hv hmeets => ?_⟩
  · show s ∈ g.next c
    rwa [FlowGraph.next_of_ok (SsaForm.succs_of_last hne hlast hn)]
  -- A phi for the variable would be in a join, and the block is a target.
  obtain ⟨phi, hphi, -⟩ := phiFor_of_meets hp hv hmeets
  obtain ⟨-, -, hjoin, -⟩ := hp.base.phi_of_mem hphi
  obtain ⟨k, hk, -⟩ := exists_block_finished hall hfin hst
  rw [kind_finished hall hfin hk, Option.some_inj] at hjoin
  rw [FlowGraph.kind, FlowGraph.block_eq_ok.mpr hk] at hkind
  have htarget : k.kind = .target := Except.ok.inj hkind
  rw [htarget] at hjoin
  cases hjoin

/-- A branch with one target on both ways, which is a target of another branch as well. -/
def sharedTarget : List Command :=
  [.targetBlock, .targetBlock, .targetBlock, .targetBlock,
    .inst (.loadLocal 0), .branchIf ⟨0⟩ ⟨2⟩ ⟨3⟩,
    .appendTo ⟨2⟩, .inst (.loadLocal 0), .branchIf ⟨3⟩ ⟨4⟩ ⟨4⟩,
    .appendTo ⟨3⟩, .inst (.loadLocal 0), .branchIf ⟨6⟩ ⟨4⟩ ⟨5⟩,
    .appendTo ⟨4⟩, .inst (.loadLocal 0), .inst (.unary .ret ⟨9⟩),
    .appendTo ⟨5⟩, .inst (.loadLocal 0), .inst (.unary .ret ⟨11⟩)]

/-- The two ways of the branch that a block ends in. -/
def lastBranch? (g : FlowGraph) (b : BlockId) : Option (BlockId × BlockId) :=
  match (g.lastInst b).bind fun i => g.nodes[i.index]? with
  | some { inst := .branch _ onTrue onFalse, .. } => some (onTrue, onFalse)
  | _ => none

theorem branch_of_lastBranch? {onTrue onFalse : BlockId} (h : lastBranch? g b = some (onTrue, onFalse)) :
    ∃ i n cond, g.lastInst b = some i ∧ g.nodes[i.index]? = some n ∧ n.inst = .branch cond onTrue onFalse := by
  unfold lastBranch? at h
  split at h
  case h_2 => cases h
  case h_1 heq =>
    obtain ⟨rfl, rfl⟩ := Prod.mk.inj (Option.some_inj.mp h)
    obtain ⟨i, hi, hn⟩ := Option.bind_eq_some_iff.mp heq
    exact ⟨i, _, _, hi, hn, rfl⟩

def sharedTargetHolds (r : FlowGraph) : Bool :=
  match Ssa.construct.run r with
  | .ok (.ok (), g) => g.check.toOption == some [] && g.preorder.contains ⟨2⟩ &&
    lastBranch? g ⟨2⟩ == some (⟨4⟩, ⟨4⟩) && g.edgesInto ⟨4⟩ == 3
  | _ => false

theorem exists_sharedTarget : ∃ b r g, Built b r ∧ Ssa.construct.run r = .ok (.ok (), g) ∧ g.Consistent ∧
    ⟨2⟩ ∈ g.preorder ∧ lastBranch? g ⟨2⟩ = some (⟨4⟩, ⟨4⟩) ∧ g.edgesInto ⟨4⟩ = 3 := by
  have h : ((Command.script sharedTarget FlowGraph.normalEntry (FlowGraph.new "f" 1 0)).map
      (sharedTargetHolds ·.2)) = some true := by decide +kernel
  obtain ⟨⟨b, r⟩, hscript, hholds⟩ := Option.map_eq_some_iff.mp h
  have hstart : Built FlowGraph.normalEntry (FlowGraph.new "f" 1 0) := @Built.start "f" 1 0 none (by decide)
  unfold sharedTargetHolds at hholds
  split at hholds
  case h_2 => cases hholds
  case h_1 g hrun =>
    simp only [Bool.and_eq_true, List.contains_iff_mem, beq_iff_eq] at hholds
    obtain ⟨⟨⟨hclean, hmem⟩, hlast⟩, hedges⟩ := hholds
    exact ⟨b, r, g, hstart.script hscript, hrun, FlowGraph.consistent_iff_computed.mpr hclean, hmem, hlast, hedges⟩

/-- The graph is accepted although three edges lead to the target: both ways of one branch and a second branch. -/
theorem sharedTarget_accepted : ∃ b r g, Built b r ∧ Ssa.construct.run r = .ok (.ok (), g) ∧ g.Consistent ∧
    ¬ ∀ (c s : BlockId) (i : InstId) (n : Node) (cond : Comparison) (onTrue onFalse : BlockId), c ∈ g.preorder →
      g.lastInst c = some i → g.nodes[i.index]? = some n → n.inst = .branch cond onTrue onFalse →
        s ∈ [onTrue, onFalse] → g.edgesInto s = 1 := by
  obtain ⟨b, r, g, hbuilt, hrun, hclean, hmem, hlast, hedges⟩ := exists_sharedTarget
  refine ⟨b, r, g, hbuilt, hrun, hclean, fun hone => ?_⟩
  obtain ⟨i, n, cond, hi, hn, hinst⟩ := branch_of_lastBranch? hlast
  have := hone ⟨2⟩ ⟨4⟩ i n cond ⟨4⟩ ⟨4⟩ hmem hi hn hinst (by simp)
  omega

/-- The branch with one target on both ways is split as far as construction asks: no local variable has different
values there. -/
theorem sharedTarget_edges_split : ∃ b r g, Built b r ∧ Ssa.construct.run r = .ok (.ok (), g) ∧ ⟨2⟩ ∈ g.preorder ∧
    EdgesSplit r g ⟨2⟩ ∧ g.edgesInto ⟨4⟩ = 3 := by
  obtain ⟨b, r, g, hbuilt, hrun, -, hmem, -, hedges⟩ := exists_sharedTarget
  exact ⟨b, r, g, hbuilt, hrun, hmem, construct_splits_edges hbuilt hrun hmem (by decide), hedges⟩

end Ssa

end Midend
