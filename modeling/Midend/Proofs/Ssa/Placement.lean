import Midend.Proofs.Flow.Frontiers
import Midend.Proofs.Ssa.Splitting

/-! # Phis are placed where values meet

A phi of a slot is needed at the iterated frontier of the blocks that store to the slot, and that is where phis are
placed. Discovery records the low 32 bits of the slots that a block stores to, so that a store to a slot far out of
range counts as one to the slot with the same low bits.
-/

namespace Midend

open Midend.Flow

namespace FlowGraph

/-- The block stores to the slot, or to one with the same low bits. -/
def StoresTo (g : FlowGraph) (slot : Nat) (b : BlockId) : Prop := StoresIn g (g.insts b) (slot % 0x100000000)

/-- `c` is in the frontier of `a`, the graph entry only with two edges into it. -/
def Borders (g : FlowGraph) (a c : BlockId) : Prop :=
  g.InFrontier a c ∧ (c = graphEntry → ∃ k, g.blocks[c.index]? = some k ∧ 1 < k.preds.length)

/-- The frontiers of the blocks that store to the slot, and the frontiers of these again. -/
inductive IteratedFrontier (g : FlowGraph) (slot : Nat) : BlockId → Prop
  | store {a c : BlockId} (ha : g.StoresTo slot a) (hc : g.Borders a c) : IteratedFrontier g slot c
  | again {a c : BlockId} (ha : IteratedFrontier g slot a) (hc : g.Borders a c) : IteratedFrontier g slot c

theorem IteratedFrontier.reachable {g : FlowGraph} {slot : Nat} {b : BlockId} (h : g.IteratedFrontier slot b) :
    g.Reachable b := by
  cases h with
  | store _ hc => exact hc.1.reachable.2
  | again _ hc => exact hc.1.reachable.2

end FlowGraph

namespace Ssa

variable {r g g' : FlowGraph} {t : Tour} {a b c : BlockId} {m n v count : Nat} {ps : List (BlockId × Nat)}
  {frontier : Array (List Nat)}

/-! ## Numbers and blocks -/

theorem storesTo_iff (ht : Touring r t []) (hm : t.preorder[m]? = some a) : Stores t m v ↔ r.StoresTo v a := by
  obtain ⟨slots, hslots, hcovers⟩ := ht.assigned m a hm
  unfold Stores FlowGraph.StoresTo
  rw [Array.getD_eq_getD_getElem?, hslots]
  exact hcovers _

theorem exists_block_recorded (ht : Touring r t []) (hb : b ∈ t.preorder) :
    ∃ k k', (recorded r t).blocks[b.index]? = some k ∧ t.blocks[b.index]? = some k' ∧ k.kind = k'.kind ∧
      k.preds = t.preds b := by
  obtain ⟨k, hk⟩ := exists_block_of_mem ht follows_recorded hb
  obtain ⟨k', hk', hkind, hpreds, -⟩ := follows_recorded.block b k hk
  exact ⟨k, k', hk, hk', hkind, by rw [hpreds, Tour.preds_eq hk' hb]⟩

theorem isJoin_recorded (ht : Touring r t []) (hb : b ∈ t.preorder) :
    (recorded r t).isJoin b = .ok (decide ((t.blocks[b.index]?).map Block.kind = some .join)) := by
  obtain ⟨k, k', hk, hk', hkind, -⟩ := exists_block_recorded ht hb
  unfold FlowGraph.isJoin FlowGraph.kind
  rw [FlowGraph.block_eq_ok.mpr hk, hk', Option.map_some, ← hkind]
  simp [bind, Except.bind, pure, Except.pure, beq_eq_decide]

theorem mem_frontiers_iff_borders (ht : Touring r t []) (hm : t.preorder[m]? = some a) (hn : t.preorder[n]? = some c) :
    n ∈ (frontiers t.predNumbers t.tree).getD m [] ↔ (recorded r t).Borders a c := by
  have hsame : (recorded r t).InFrontier a c ↔ r.InFrontier a c := FlowGraph.inFrontier_congr fun _ => rfl
  obtain ⟨k, -, hk, -, -, hpreds⟩ := exists_block_recorded ht (List.mem_of_getElem? hn)
  unfold FlowGraph.Borders
  rw [mem_frontiers_iff_inFrontier ht hm hn, hsame, hk, ← hpreds]
  refine and_congr_right fun hfrontier => ?_
  by_cases hc : c = FlowGraph.graphEntry
  · simp [hc]
  · exact iff_of_true (hpreds ▸ one_lt_preds_of_inFrontier ht hc hfrontier) fun h => absurd h hc

theorem iterated_iff (ht : Touring r t []) (hn : t.preorder[n]? = some c) :
    Iterated t (frontiers t.predNumbers t.tree) v n ↔ (recorded r t).IteratedFrontier v c := by
  have hnumber {b : BlockId} (hb : (recorded r t).Reachable b) : ∃ n, t.preorder[n]? = some b :=
    List.mem_iff_getElem?.mp (ht.mem_preorder_iff_reachable.mpr hb)
  have hblock {m n : Nat} (hmem : n ∈ (frontiers t.predNumbers t.tree).getD m []) : ∃ a, t.preorder[m]? = some a := by
    have hm := (lt_of_mem_frontiers hmem).2
    rw [Tour.size_predNumbers] at hm
    exact ⟨_, List.getElem?_eq_getElem hm⟩
  constructor
  · intro h
    induction h generalizing c with
    | store hstores hmem =>
      obtain ⟨a, hm⟩ := hblock hmem
      exact .store ((storesTo_iff ht hm).mp hstores) ((mem_frontiers_iff_borders ht hm hn).mp hmem)
    | again _ hmem ih =>
      obtain ⟨a, hm⟩ := hblock hmem
      exact .again (ih hm) ((mem_frontiers_iff_borders ht hm hn).mp hmem)
  · intro h
    induction h generalizing n with
    | store hstores hborders =>
      obtain ⟨m, hm⟩ := hnumber hborders.1.reachable.1
      exact .store ((storesTo_iff ht hm).mpr hstores) ((mem_frontiers_iff_borders ht hm hn).mpr hborders)
    | again _ hborders ih =>
      obtain ⟨m, hm⟩ := hnumber hborders.1.reachable.1
      exact .again (ih hm) ((mem_frontiers_iff_borders ht hm hn).mpr hborders)

/-! ## The phis of a block -/

/-- The slots that `ps` has a phi for in the block. -/
def slotsAt (ps : List (BlockId × Nat)) (b : BlockId) : List Nat :=
  ps.filterMap fun p => if p.1 = b then some p.2 else none

theorem mem_slotsAt : v ∈ slotsAt ps b ↔ (b, v) ∈ ps := by
  unfold slotsAt
  rw [List.mem_filterMap]
  constructor
  · rintro ⟨⟨c, w⟩, hmem, heq⟩
    obtain ⟨rfl, rfl⟩ : c = b ∧ w = v := by simpa using heq
    exact hmem
  · exact fun hmem => ⟨(b, v), hmem, if_pos rfl⟩

theorem slotsAt_nodup (h : ps.Nodup) : (slotsAt ps b).Nodup := by
  refine h.filterMap ?_
  rintro ⟨c, w⟩ ⟨c', w'⟩ v hv hv'
  obtain ⟨rfl, rfl⟩ : c = b ∧ w = v := by simpa using hv
  obtain ⟨rfl, rfl⟩ : c' = c ∧ w' = w := by simpa using hv'
  rfl

theorem forall₂_phiIds (start : Nat) (ps : List (BlockId × Nat)) (b : BlockId) :
    List.Forall₂ (fun phi v => ∃ j, phi = ⟨start + j⟩ ∧ ps[j]? = some (b, v)) (phiIds start ps b) (slotsAt ps b) := by
  induction ps using List.reverseRecOn with
  | nil => exact .nil
  | append_singleton ps p ih =>
    obtain ⟨c, w⟩ := p
    have hslots : slotsAt (ps ++ [(c, w)]) b = slotsAt ps b ++ if c = b then [w] else [] := by
      unfold slotsAt
      rw [List.filterMap_append]
      congr 1
      by_cases hc : c = b <;> simp [hc]
    rw [phiIds_concat, hslots]
    refine List.rel_append (ih.imp ?_) ?_
    · rintro phi v ⟨j, rfl, hj⟩
      exact ⟨j, rfl, by rw [List.getElem?_append_left (List.getElem?_eq_some_iff.mp hj).1, hj]⟩
    · by_cases hc : c = b
      · simp [hc]
      · simp [hc]

/-- The phis of the block in `g'` are dead and have no inputs yet, and there is one for each slot of which values may
meet at the block. -/
structure PhisAtFrontier (g g' : FlowGraph) (count : Nat) (b : BlockId) (k : Block) (slots : List Nat) : Prop where
  block : g'.blocks[b.index]? = some k
  slots_nodup : slots.Nodup
  mem_slots : ∀ v, v ∈ slots ↔ v < count ∧ g.IteratedFrontier v b
  phis : List.Forall₂ (fun phi v => g'.nodes[phi.index]? = some
    { inst := .phi (some v) (List.replicate k.preds.length .unset) false .tagged, block := some b }) k.phis slots

theorem phisAtFrontier_withPhis (ht : Touring r t []) (hnone : ∀ k ∈ r.blocks, k.phis = []) (hb : b ∈ t.preorder)
    (hdistinct : ps.Nodup) (hvars : ∀ q ∈ ps, q.2 < count)
    (hcomplete : ∀ v < count, Complete t (frontiers t.predNumbers t.tree) v ps) :
    ∃ k, PhisAtFrontier (recorded r t) (withPhis t (recorded r t) ps) count b k (slotsAt ps b) := by
  obtain ⟨k, k', hk, hk', -, hpreds⟩ := exists_block_recorded ht hb
  obtain ⟨n, hn⟩ := List.mem_iff_getElem?.mp hb
  have hnil : k.phis = [] := by
    obtain ⟨k₀, hk₀, -, hphis, -⟩ := ht.kept b k' hk'
    rw [blocks_recorded, hk', Option.map_some, Option.some_inj] at hk
    rw [← hk, Tour.placed, ← hnone k₀ (Array.mem_of_getElem? hk₀), ← hphis]
    split <;> rfl
  refine ⟨{ k with phis := phiIds (recorded r t).nodes.size ps b }, ?_, slotsAt_nodup hdistinct, fun v => ?_, ?_⟩
  · rw [blocks_withPhis, hk, Option.map_some, hnil, List.nil_append]
  · rw [mem_slotsAt]
    constructor
    · intro hv
      have hcount : v < count := hvars _ hv
      exact ⟨hcount, (iterated_iff ht hn).mp ((hcomplete v hcount).iterated n ⟨b, hn, hv⟩)⟩
    · rintro ⟨hcount, hv⟩
      obtain ⟨b', hb', hmem⟩ := (hcomplete v hcount).closed.of_iterated ((iterated_iff ht hn).mpr hv)
      obtain rfl : b' = b := by simpa [hn] using hb'.symm
      exact hmem
  · refine (forall₂_phiIds _ ps b).imp ?_
    rintro phi v ⟨j, rfl, hj⟩
    rw [nodes_withPhis, if_neg (Nat.not_lt.mpr (Nat.le_add_right _ _)), Nat.add_sub_cancel_left, hj, Option.map_some,
      phiNode, ← hpreds]

/-! ## What placement does -/

theorem leads_visitBlock_count : Leads True g (visitBlock b none) fun _ _ => ∃ count, g.variableCount = .ok count := by
  unfold visitBlock assignedSlots
  rw [Leads.bind_iff, Leads.modifyBlock_iff]
  refine ⟨fun _ => ?_, fun _ => trivial⟩
  simp only [Leads.bind_iff, Leads.get_iff, Leads.pure_iff]
  rw [Leads.lift_iff, Yields.bind_iff]
  refine Yields.of_ok fun count hcount => Yields.of_ok fun _ _ => ?_
  exact (Leads.of_ok fun _ _ _ => trivial).mono fun _ _ _ => Leads.of_ok fun _ _ _ => ⟨count, hcount⟩

theorem variableCount_of_run (hrun : (discover >>= fun _ => computeDominators) r = .ok (frontier, g)) :
    ∃ count, r.variableCount = .ok count := by
  have hdiscover : Leads True r discover fun _ _ => ∃ count, r.variableCount = .ok count := by
    unfold discover forgetOrder
    rw [Leads.bind_iff, Leads.modify_iff, Leads.bind_iff]
    exact leads_visitBlock_count.mono fun _ _ hcount => Leads.of_ok fun _ _ _ => hcount
  exact (Leads.bind_iff.mpr (hdiscover.mono fun _ _ hcount => Leads.of_ok fun _ _ _ => hcount)).post_of_ok hrun

/-- Dominators have been computed for a graph without phis, and phis have room for their inputs. -/
structure Prepared (r : FlowGraph) (frontier : Array (List Nat)) (g : FlowGraph) : Prop where
  phis : ∀ k ∈ r.blocks, k.phis = []
  run : (discover >>= fun _ => computeDominators) r = .ok (frontier, g)
  preds : ∀ k ∈ g.blocks, k.preds.length < Edit.inputLimit

/-- Placement ends well if and only if all blocks of the iterated frontiers are joins, and gives the method up for one
that is not. Each block then has the phis for the slots whose iterated frontier it is in, and no other phi. -/
theorem insertPhis_exact (h : Prepared r frontier g) :
    ∃ count result g', g.variableCount = .ok count ∧ (insertPhis frontier).run g = .ok (result, g') ∧
      (result = .ok () ↔ ∀ v < count, ∀ b, g.IteratedFrontier v b → g.isJoin b = .ok true) ∧
      (∀ e, result = .error e → ∃ v < count, ∃ b, g.IteratedFrontier v b ∧ g.isJoin b = .ok false ∧
        e = .malformedGraph (.notJoin b)) ∧
      (result = .ok () → ∀ b, g.Reachable b → ∃ k slots, PhisAtFrontier g g' count b k slots) := by
  obtain ⟨t, ht, rfl, hg⟩ := (leads_dominators (.inl trivial)).post_of_ok h.run
  obtain rfl : g = recorded r t := hg
  obtain ⟨count, hcount⟩ : ∃ count, (recorded r t).variableCount = .ok count :=
    variableCount_of_run (r := r) h.run
  have hready : Ready r t (recorded r t) := by
    refine ⟨ht, follows_recorded, fun b hjoin => ?_⟩
    obtain ⟨k', hk', -⟩ := Option.map_eq_some_iff.mp hjoin
    by_cases hb : b ∈ t.preorder
    · obtain ⟨k, -, hk, -, -, hpreds⟩ := exists_block_recorded ht hb
      exact hpreds ▸ h.preds k (Array.mem_of_getElem? hk)
    · simp only [Tour.preds, hb, if_false]
      decide
  have hbound : ∀ n, ∀ m ∈ (frontiers t.predNumbers t.tree).getD n [], m < t.preorder.length := fun n m hm => by
    have hlt := (lt_of_mem_frontiers hm).1
    rwa [Tour.size_predNumbers] at hlt
  obtain ⟨⟨⟩, g', hrun', ps, rfl, hplaced, hdistinct, hvars, hcomplete⟩ | ⟨e, g', hrun', hrefused⟩ :=
    (ends_insertPhis hready hcount hbound).cases
  · refine ⟨count, _, _, hcount, hrun', iff_of_true rfl fun v hv b hb => ?_,
      fun _ h => (by cases h), fun _ b hb => ?_⟩
    · have hmem : b ∈ t.preorder := ht.mem_preorder_iff_reachable.mpr hb.reachable
      obtain ⟨n, hn⟩ := List.mem_iff_getElem?.mp hmem
      obtain ⟨b', hb', hphi⟩ := (hcomplete v hv).closed.of_iterated ((iterated_iff ht hn).mpr hb)
      obtain rfl : b' = b := by simpa [hn] using hb'.symm
      rw [isJoin_recorded ht hmem, decide_eq_true (hplaced b' v hphi).2]
    · obtain ⟨k, hphis⟩ := phisAtFrontier_withPhis ht h.phis (ht.mem_preorder_iff_reachable.mpr hb) hdistinct hvars
        hcomplete
      exact ⟨k, _, hphis⟩
  · obtain ⟨v, n, b, hv, hiterated, hn, hkind, rfl⟩ := hrefused
    have hb : (recorded r t).IteratedFrontier v b := (iterated_iff ht hn).mp hiterated
    have hjoin : (recorded r t).isJoin b = .ok false := by
      rw [isJoin_recorded ht (List.mem_of_getElem? hn), decide_eq_false hkind]
    refine ⟨count, _, _, hcount, hrun', iff_of_false (fun h => by cases h) fun hall => ?_, ?_,
      fun h => by cases h⟩
    · have htrue := hall v hv b hb
      rw [hjoin] at htrue
      cases htrue
    · rintro _ ⟨⟩
      exact ⟨v, hv, b, hb, hjoin, rfl⟩

/-- The graph that commands lead to, the frontiers that are computed for it, and the graph with its dominators. -/
def dominated (commands : List Command) (parameterCount : Nat) : Option (FlowGraph × Array (List Nat) × FlowGraph) :=
  (do
    let (_, r) ← Build.run (commands.forM Command.run) (FlowGraph.new "f" parameterCount 0)
    let (frontier, g) ← (discover >>= fun _ => computeDominators) r
    return (r, frontier, g)).toOption

/-- Whether there are no phis, and short predecessor lists only. -/
def isPrepared (r g : FlowGraph) : Bool :=
  r.blocks.all (fun k => k.phis.isEmpty) && g.blocks.all fun k => k.preds.length < Edit.inputLimit

theorem prepared_of_dominated {commands : List Command} (h : dominated commands n = some (r, frontier, g))
    (hprepared : isPrepared r g = true) : Prepared r frontier g := by
  obtain ⟨⟨_, r'⟩, hbuild, hrest⟩ := bind_eq_ok.mp (toOption_eq_some_iff.mp h)
  obtain ⟨⟨frontier', g'⟩, hrun, heq⟩ := bind_eq_ok.mp hrest
  obtain ⟨rfl, rfl, rfl⟩ : r' = r ∧ frontier' = frontier ∧ g' = g := by simpa [pure, Except.pure] using heq
  simp only [isPrepared, Bool.and_eq_true, Array.all_eq_true', List.isEmpty_iff, decide_eq_true_eq] at hprepared
  exact ⟨hprepared.1, hrun, hprepared.2⟩

def storingLoop : List Command :=
  [.joinBlock, .targetBlock, .targetBlock, .inst (.goto ⟨2⟩),
    .appendTo ⟨2⟩, .inst (.loadLocal 0), .branchIf ⟨1⟩ ⟨3⟩ ⟨4⟩,
    .appendTo ⟨3⟩, .inst (.loadLocal 0), .inst (.storeLocal 0 ⟨4⟩), .inst (.goto ⟨2⟩),
    .appendTo ⟨4⟩, .inst (.loadLocal 0), .inst (.unary .ret ⟨7⟩)]

/-- What is to be seen of the loop: the header, which can be reached, gets one phi. -/
def storingLoopHolds (r : FlowGraph) (frontier : Array (List Nat)) (g : FlowGraph) : Bool :=
  isPrepared r g && g.variableCount.toOption == some 1 && (g.next FlowGraph.graphEntry).contains ⟨1⟩ &&
    (g.next ⟨1⟩).contains ⟨2⟩ &&
    match (insertPhis frontier).run g with
    | .ok (.ok _, g') => (g'.blocks[2]?).any fun k => k.phis.length == 1
    | _ => false

/-- The header of the loop is in the iterated frontier of the block that stores, and has the phi. -/
theorem storingLoop_phi : ∃ r frontier g g' k, Prepared r frontier g ∧
    (insertPhis frontier).run g = .ok (.ok (), g') ∧ PhisAtFrontier g g' 1 ⟨2⟩ k [0] := by
  have hcompute : (dominated storingLoop 1).map (fun r => storingLoopHolds r.1 r.2.1 r.2.2) =
    some true := by decide +kernel
  obtain ⟨⟨r, frontier, g⟩, hdominated, hholds⟩ := Option.map_eq_some_iff.mp hcompute
  simp only [storingLoopHolds, Bool.and_eq_true, beq_iff_eq, toOption_eq_some_iff, List.contains_iff_mem] at hholds
  obtain ⟨⟨⟨⟨hisPrepared, hone⟩, hentry⟩, hloop⟩, hphi⟩ := hholds
  have hprepared : Prepared r frontier g := prepared_of_dominated hdominated hisPrepared
  have hreachable : g.Reachable ⟨2⟩ := (Relation.ReflTransGen.single hentry).tail hloop
  obtain ⟨count, result, g', hcount, hrun, -, -, hphis⟩ := insertPhis_exact hprepared
  obtain rfl : count = 1 := Except.ok.inj (hcount.symm.trans hone)
  rw [hrun] at hphi
  cases result with
  | error e => cases hphi
  | ok =>
    obtain ⟨k, slots, hslots⟩ := hphis rfl ⟨2⟩ hreachable
    have hlength : slots.length = 1 := by
      simp only [hslots.block, Option.any_some, beq_iff_eq] at hphi
      rw [← hslots.phis.length_eq, hphi]
    obtain ⟨v, rfl⟩ := List.length_eq_one_iff.mp hlength
    obtain rfl : v = 0 := Nat.lt_one_iff.mp ((hslots.mem_slots v).mp (List.mem_singleton_self v)).1
    exact ⟨r, frontier, g, g', k, hprepared, hrun, hslots⟩

/-- A store to a slot that is none of the two parameters', in front of edges that cross. -/
def wideStore : List Command :=
  [.targetBlock, .targetBlock, .targetBlock, .targetBlock,
    .inst (.loadLocal 0), .branchIf ⟨0⟩ ⟨2⟩ ⟨3⟩,
    .appendTo ⟨2⟩, .inst (.loadLocal 0), .inst (.storeLocal 0x100000001 ⟨3⟩), .inst (.loadLocal 0),
    .branchIf ⟨5⟩ ⟨4⟩ ⟨5⟩,
    .appendTo ⟨3⟩, .inst (.loadLocal 0), .branchIf ⟨8⟩ ⟨4⟩ ⟨5⟩,
    .appendTo ⟨4⟩, .inst (.loadLocal 0), .inst (.unary .ret ⟨11⟩),
    .appendTo ⟨5⟩, .inst (.loadLocal 0), .inst (.unary .ret ⟨13⟩)]

/-- What is to be seen of the graph: it is given up, and no store is to one of the first two slots. -/
def wideStoreHolds (r : FlowGraph) (frontier : Array (List Nat)) (g : FlowGraph) : Bool :=
  isPrepared r g && g.variableCount.toOption == some 2 &&
    g.nodes.all (fun n => n.inst.opcode != .storeLocal || n.inst.slot?.any fun s => 2 ≤ s) &&
    match (insertPhis frontier).run g with
    | .ok (.error _, _) => true
    | _ => false

theorem not_meets_of_stores (h : ∀ n ∈ g.nodes, ∀ s w, n.inst = .storeLocal s w → count ≤ s) (hv : v < count) :
    ¬ g.Meets v b := by
  intro hmeets
  induction hmeets with
  | store _ hn hstore _ => exact absurd (h _ (Array.mem_of_getElem? hn) _ _ hstore) (Nat.not_le.mpr hv)
  | again _ _ ih => exact ih

/-- The method is given up though no block stores to one of the two slots. -/
theorem wideStore_refused : ∃ r frontier g e g', Prepared r frontier g ∧ g.variableCount = .ok 2 ∧
    (∀ v < 2, ∀ b, ¬ g.Meets v b) ∧ (insertPhis frontier).run g = .ok (.error e, g') := by
  have hcompute : (dominated wideStore 2).map (fun r => wideStoreHolds r.1 r.2.1 r.2.2) = some true := by decide +kernel
  obtain ⟨⟨r, frontier, g⟩, hdominated, hholds⟩ := Option.map_eq_some_iff.mp hcompute
  simp only [wideStoreHolds, Bool.and_eq_true, beq_iff_eq, toOption_eq_some_iff] at hholds
  obtain ⟨⟨⟨hisPrepared, hcount⟩, hstores⟩, hrefused⟩ := hholds
  have hwide : ∀ n ∈ g.nodes, ∀ s w, n.inst = .storeLocal s w → 2 ≤ s := by
    intro n hn s w hinst
    have hstore := Array.all_eq_true'.mp hstores n hn
    simpa [hinst, Inst.opcode, Inst.slot?] using hstore
  split at hrefused
  case h_2 => cases hrefused
  case h_1 e g' hrun =>
    exact ⟨r, frontier, g, e, g', prepared_of_dominated hdominated hisPrepared, hcount,
      fun v hv b => not_meets_of_stores hwide hv, hrun⟩

end Ssa

end Midend
