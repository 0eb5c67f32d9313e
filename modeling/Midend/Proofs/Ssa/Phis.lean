import Midend.Proofs.Flow.Tree
import Midend.Proofs.Graph.Initial
import Midend.Ssa.Phis

/-! # Where phis are placed

What edge-split form says about the edges into joins, and the phis of all variables as a list of places.
-/

namespace Midend

open Midend.Flow

/-! ## Edge-split form -/

/-- The block ends in a terminator, which branches to targets only or goes on to a join. -/
def SplitAt (r : FlowGraph) (t : Tour) (b : BlockId) : Prop :=
  ∃ (i : InstId) (n : Node), r.lastInst b = some i ∧ r.nodes[i.index]? = some n ∧ n.inst.isTerminator = true ∧
    ∀ s ∈ n.inst.successors, (t.blocks[s.index]?).map Block.kind =
      some (if n.inst.opcode = .branch then .target else .join)

namespace Ssa

variable {r : FlowGraph} {t : Tour} {b p : BlockId}

inductive Unplaced : Bailout → Prop where
  | unterminated (b : BlockId) : Unplaced (.malformedGraph (.unterminated b))
  | unsplitEdge (b s : BlockId) : Unplaced (.malformedGraph (.unsplitEdge b s))
  | notJoin (b : BlockId) : Unplaced (.malformedGraph (.notJoin b))

theorem ends_checkSplit (hr : Raw r) (ht : Touring r t []) :
    Ends False Unplaced (onTour r t) (checkSplit b) fun _ g' => g' = onTour r t ∧ SplitAt r t b := by
  have hlast' : (onTour r t).lastInst b = r.lastInst b := rfl
  unfold checkSplit
  rw [Ends.bind_iff, Ends.getThe_iff, hlast']
  cases hlast : r.lastInst b with
  | none => exact .unterminated b
  | some i =>
    obtain ⟨n, hn⟩ := hr.exists_last hlast
    have hinst : (onTour r t).inst i = .ok n.inst := FlowGraph.inst_eq_ok.mpr ⟨n, hn, rfl⟩
    rw [Ends.bind_iff, Ends.read_iff, hinst, Yields.ok_iff]
    cases hterm : n.inst.isTerminator with
    | false => exact .unterminated b
    | true =>
      obtain ⟨expected, hexpected⟩ :
          ∃ e, (if n.inst.opcode = .branch then BlockKind.target else .join) = e := ⟨_, rfl⟩
      simp only [Bool.not_true, Bool.false_eq_true, if_false, hexpected]
      refine (Ends.stepwise.forM (fun done g' => g' = onTour r t ∧
        ∀ s ∈ done, (t.blocks[s.index]?).map Block.kind = some expected) ⟨rfl, by simp⟩ ?_).mono ?_
      · rintro done s rest _ hsplit ⟨rfl, hdone⟩
        have hs : s.index < t.blocks.size := by
          rw [ht.size]
          exact ((hr.admits i n hn).successors s (by simp [hsplit])).1
        have hblock : t.blocks[s.index]? = some t.blocks[s.index] := Array.getElem?_eq_getElem hs
        have hkind : (onTour r t).kind s = .ok t.blocks[s.index].kind := by
          unfold FlowGraph.kind
          rw [FlowGraph.block_eq_ok.mpr (show (onTour r t).blocks[s.index]? = _ from hblock)]
          rfl
        rw [Ends.bind_iff, Ends.read_iff, hkind, Yields.ok_iff]
        by_cases heq : t.blocks[s.index].kind = expected
        · rw [if_neg (not_not.mpr heq), Ends.pure_iff]
          refine ⟨rfl, fun s' hs' => ?_⟩
          obtain hs' | hs' := List.mem_append.mp hs'
          · exact hdone s' hs'
          · rw [List.mem_singleton.mp hs', hblock, Option.map_some, heq]
        · rw [if_pos heq]
          exact .unsplitEdge b s
      · rintro _ _ ⟨rfl, hall⟩
        refine ⟨rfl, i, n, hlast, hn, hterm, ?_⟩
        rwa [hexpected]

theorem ends_checkEdgeSplitForm (hr : Raw r) (ht : Touring r t []) :
    Ends False Unplaced (onTour r t) checkEdgeSplitForm fun _ g' => g' = onTour r t ∧
      ∀ b ∈ t.preorder, b ≠ FlowGraph.graphEntry → SplitAt r t b := by
  unfold checkEdgeSplitForm
  rw [Ends.bind_iff, Ends.getThe_iff]
  refine (Ends.stepwise.forM (fun done g' => g' = onTour r t ∧ ∀ b ∈ done, SplitAt r t b) ⟨rfl, by simp⟩ ?_).mono ?_
  · rintro done b rest _ - ⟨rfl, hdone⟩
    refine (ends_checkSplit hr ht).mono ?_
    rintro _ _ ⟨rfl, hb⟩
    refine ⟨rfl, fun c hc => ?_⟩
    obtain hc | hc := List.mem_append.mp hc
    · exact hdone c hc
    · rwa [List.mem_singleton.mp hc]
  · rintro _ _ ⟨rfl, hall⟩
    refine ⟨rfl, fun b hb hne => hall b (List.mem_filter.mpr ⟨hb, ?_⟩)⟩
    exact bne_iff_ne.mpr hne

theorem goto_of_mem_preds (hr : Raw r) (hcatch : r.catchEntries = []) (ht : Touring r t [])
    (hsplit : ∀ b ∈ t.preorder, b ≠ FlowGraph.graphEntry → SplitAt r t b)
    (hjoin : (t.blocks[b.index]?).map Block.kind = some .join) (hp : p ∈ t.preds b) :
    p ≠ FlowGraph.graphEntry ∧
      ∃ (i : InstId) (n : Node), r.lastInst p = some i ∧ r.nodes[i.index]? = some n ∧ n.inst = .goto b := by
  obtain ⟨hmem, hnext⟩ := ht.mem_preds_iff.mp hp
  have hne : p ≠ FlowGraph.graphEntry := by
    rintro rfl
    rw [Raw.next_graphEntry hcatch, List.mem_singleton] at hnext
    subst hnext
    obtain ⟨k, hk, hkind⟩ := Option.map_eq_some_iff.mp hjoin
    obtain ⟨k', hk', hkept, -⟩ := ht.kept FlowGraph.normalEntry k hk
    obtain rfl : { kind := .target } = k' := by simpa [hr.entry] using hk'
    rw [hkind] at hkept
    cases hkept
  refine ⟨hne, ?_⟩
  obtain ⟨i, n, hlast, hn, -, hsuccs⟩ := hsplit p hmem hne
  have hsame : r.next p = n.inst.successors := by
    obtain h | ⟨j, m, hj, hm, h⟩ := hr.next_eq hne
    · simp [h] at hnext
    · obtain rfl : i = j := by simpa [hlast] using hj
      obtain rfl : n = m := by simpa [hn] using hm
      exact h
  rw [hsame] at hnext
  have hkind := hsuccs b hnext
  refine ⟨i, n, hlast, hn, ?_⟩
  cases hinst : n.inst with
  | goto s =>
    rw [hinst] at hnext
    rw [List.mem_singleton.mp hnext]
  | branch c t e =>
    rw [hinst, hjoin] at hkind
    simp [Inst.opcode] at hkind
  | _ => simp [hinst, Inst.successors] at hnext

theorem nodup_preds (hr : Raw r) (hcatch : r.catchEntries = []) (ht : Touring r t [])
    (hsplit : ∀ b ∈ t.preorder, b ≠ FlowGraph.graphEntry → SplitAt r t b)
    (hjoin : (t.blocks[b.index]?).map Block.kind = some .join) : (t.preds b).Nodup := by
  rw [List.nodup_iff_count_le_one]
  intro p
  by_cases hp : p ∈ t.preds b
  · obtain ⟨hne, i, n, hlast, hn, hinst⟩ := goto_of_mem_preds hr hcatch ht hsplit hjoin hp
    rw [ht.count_preds (ht.known b p hp)]
    obtain h | ⟨j, m, hj, hm, h⟩ := hr.next_eq hne
    · simp [h]
    · obtain rfl : i = j := by simpa [hlast] using hj
      obtain rfl : n = m := by simpa [hn] using hm
      simp [h, hinst, Inst.successors]
  · rw [List.count_eq_zero.mpr hp]
    exact Nat.zero_le 1

/-! ## Lists of phis -/

def phiNode (t : Tour) (b : BlockId) (var : Nat) : Node where
  inst := .phi (some var) (List.replicate (t.preds b).length .unset) false .tagged
  block := some b

/-- The keys of the phis of a block among `ps`, which were added behind `start` instructions. -/
def phiIds (start : Nat) (ps : List (BlockId × Nat)) (b : BlockId) : List InstId :=
  (ps.zipIdx start).filterMap fun (p, j) => if p.1 = b then some ⟨j⟩ else none

/-- The graph with a new phi for each place of `ps`. -/
def withPhis (t : Tour) (g : FlowGraph) (ps : List (BlockId × Nat)) : FlowGraph :=
  { g.mapBlocks fun b k => { k with phis := k.phis ++ phiIds g.nodes.size ps b } with
    nodes := g.nodes ++ (ps.map fun p => phiNode t p.1 p.2).toArray }

theorem mem_phiIds {start : Nat} {ps : List (BlockId × Nat)} {i : InstId} :
    i ∈ phiIds start ps b ↔ ∃ j v, i.index = start + j ∧ ps[j]? = some (b, v) := by
  unfold phiIds
  rw [List.mem_filterMap]
  constructor
  · rintro ⟨⟨⟨c, v⟩, k⟩, hmem, hk⟩
    obtain ⟨hle, hget⟩ := List.mk_mem_zipIdx_iff_le_and_getElem?_sub.mp hmem
    simp only [Option.ite_none_right_eq_some, Option.some_inj] at hk
    obtain ⟨rfl, rfl⟩ := hk
    exact ⟨k - start, v, by simp only; omega, hget⟩
  · rintro ⟨j, v, hi, hget⟩
    refine ⟨((b, v), start + j), List.mk_mem_zipIdx_iff_le_and_getElem?_sub.mpr ⟨by omega, by simpa using hget⟩, ?_⟩
    simp [← hi]

theorem phiIds_concat (start : Nat) (ps : List (BlockId × Nat)) (p : BlockId × Nat) :
    phiIds start (ps ++ [p]) b = phiIds start ps b ++ if p.1 = b then [⟨start + ps.length⟩] else [] := by
  unfold phiIds
  rw [List.zipIdx_append, List.filterMap_append]
  congr 1
  by_cases h : p.1 = b <;> simp [h]

theorem blocks_withPhis {g : FlowGraph} (ps : List (BlockId × Nat)) (c : BlockId) :
    (withPhis t g ps).blocks[c.index]? =
      (g.blocks[c.index]?).map fun k => { k with phis := k.phis ++ phiIds g.nodes.size ps c } :=
  FlowGraph.blocks_mapBlocks (g := g) (f := fun b k => { k with phis := k.phis ++ phiIds g.nodes.size ps b }) c

theorem nodes_withPhis {g : FlowGraph} (ps : List (BlockId × Nat)) (i : InstId) :
    (withPhis t g ps).nodes[i.index]? = if i.index < g.nodes.size then g.nodes[i.index]?
      else (ps[i.index - g.nodes.size]?).map fun p => phiNode t p.1 p.2 := by
  unfold withPhis
  rw [Array.getElem?_append]
  simp

theorem withPhis_nil (g : FlowGraph) : withPhis t g [] = g := by
  have h : (g.mapBlocks fun b k => { k with phis := k.phis ++ phiIds g.nodes.size [] b }) = g := by
    refine Eq.trans (FlowGraph.mapBlocks_congr fun b k _ => ?_) FlowGraph.mapBlocks_id
    simp [phiIds]
  unfold withPhis
  rw [h]
  simp

theorem leads_addPhi {g : FlowGraph} {ps : List (BlockId × Nat)} {v : Nat} (hb : b.index < g.blocks.size)
    (hlimit : (t.preds b).length < Edit.inputLimit) :
    Leads False (withPhis t g ps) (Edit.addPhi b (some v) (t.preds b).length) fun _ g' =>
      g' = withPhis t g (ps ++ [(b, v)]) := by
  have hsize : b.index < (withPhis t g ps).blocks.size := by simpa [withPhis, FlowGraph.mapBlocks] using hb
  have hid : (withPhis t g ps).nextId.index < (withPhis t g ps).nodes.size + 1 := Nat.lt_succ_self _
  unfold Edit.addPhi Edit.setBlock
  rw [if_neg (Nat.not_le.mpr hlimit)]
  simp only [Leads.bind_iff, Leads.addInst_iff, Leads.modifyNode_iff, FlowGraph.size_withInst, hid, true_implies,
    Nat.not_le.mpr hid, false_implies, and_true, FlowGraph.withNode_withInst, Leads.modifyBlock_iff, Leads.pure_iff]
  refine ⟨fun _ => ?_, fun h => absurd hsize (Nat.not_lt.mpr h)⟩
  have hnodes : ((withPhis t g ps).withInst (phiNode t b v)).nodes = (withPhis t g (ps ++ [(b, v)])).nodes := by
    simp [withPhis, FlowGraph.withInst]
  have hblocks : (((withPhis t g ps).withInst (phiNode t b v)).withBlock b fun k =>
      { k with phis := k.phis ++ [(withPhis t g ps).nextId] }).blocks = (withPhis t g (ps ++ [(b, v)])).blocks := by
    refine FlowGraph.ext_blocks fun c => ?_
    rw [FlowGraph.blocks_withBlock]
    have hleft : ((withPhis t g ps).withInst (phiNode t b v)).blocks[c.index]? =
        (g.blocks[c.index]?).map fun k => { k with phis := k.phis ++ phiIds g.nodes.size ps c } :=
      blocks_withPhis (t := t) ps c
    have hnext : (withPhis t g ps).nextId = ⟨g.nodes.size + ps.length⟩ := by simp [FlowGraph.nextId, withPhis]
    rw [hleft, blocks_withPhis, Option.map_map, hnext]
    congr 1
    funext k
    simp only [Function.comp_apply, phiIds_concat]
    by_cases hc : c = b
    · simp [hc]
    · simp [hc, Ne.symm hc]
  show ({ g with
    nodes := ((withPhis t g ps).withInst (phiNode t b v)).nodes
    blocks := (((withPhis t g ps).withInst (phiNode t b v)).withBlock b fun k =>
      { k with phis := k.phis ++ [(withPhis t g ps).nextId] }).blocks } : FlowGraph) =
    { g with
      nodes := (withPhis t g (ps ++ [(b, v)])).nodes
      blocks := (withPhis t g (ps ++ [(b, v)])).blocks }
  rw [hnodes, hblocks]

/-! ## Placing the phis of one variable -/

/-- The block numbered `n` has a phi of the variable. -/
def HasPhi (t : Tour) (ps : List (BlockId × Nat)) (n var : Nat) : Prop :=
  ∃ b, t.preorder[n]? = some b ∧ (b, var) ∈ ps

/-- The block numbered `n` stores to the variable, as far as the low bits tell. -/
def Stores (t : Tour) (n var : Nat) : Prop := (t.assigned.getD n {}).contains (var % 0x100000000) = true

/-- The block numbered `m` is in the frontier of one that stores to the variable, or of one for which this holds. -/
inductive Iterated (t : Tour) (frontier : Array (List Nat)) (var : Nat) : Nat → Prop
  | store {n m : Nat} (hn : Stores t n var) (hm : m ∈ frontier.getD n []) : Iterated t frontier var m
  | again {n m : Nat} (hn : Iterated t frontier var n) (hm : m ∈ frontier.getD n []) : Iterated t frontier var m

/-- Every place for a phi is a join that was visited. -/
def Placed (t : Tour) (ps : List (BlockId × Nat)) : Prop :=
  ∀ b v, (b, v) ∈ ps → b ∈ t.preorder ∧ (t.blocks[b.index]?).map Block.kind = some .join

/-- Wherever a value of the variable meets another one there is a phi. -/
def Closed (t : Tour) (frontier : Array (List Nat)) (ps : List (BlockId × Nat)) (var : Nat) : Prop :=
  ∀ n, Stores t n var ∨ HasPhi t ps n var → ∀ m ∈ frontier.getD n [], HasPhi t ps m var

theorem Closed.of_iterated {frontier : Array (List Nat)} {ps : List (BlockId × Nat)} {var n : Nat}
    (h : Closed t frontier ps var) (hn : Iterated t frontier var n) : HasPhi t ps n var := by
  induction hn with
  | store hstores hm => exact h _ (.inl hstores) _ hm
  | again _ hm ih => exact h _ (.inr ih) _ hm

/-- A block that would need a phi of one of the variables is no join. -/
def Refused (t : Tour) (frontier : Array (List Nat)) (count : Nat) (e : Bailout) : Prop :=
  ∃ v n b, v < count ∧ Iterated t frontier v n ∧ t.preorder[n]? = some b ∧
    (t.blocks[b.index]?).map Block.kind ≠ some .join ∧ e = .malformedGraph (.notJoin b)

/-! ## What the marks tell of a variable -/

namespace Marks

/-- The blocks that have a phi of the variable or of a later one. -/
def placedFor (m : Marks) (var : Nat) : Finset Nat :=
  (Finset.range m.placed.size).filter fun n => (var : Int) ≤ m.placed.getD n (-1)

/-- The blocks that went onto the worklist for the variable or for a later one. -/
def queuedFor (m : Marks) (var : Nat) : Finset Nat :=
  (Finset.range m.queued.size).filter fun n => (var : Int) ≤ m.queued.getD n (-1)

def Below (m : Marks) (var : Nat) : Prop := m.placedFor var = ∅ ∧ m.queuedFor var = ∅

theorem lt_size_of_le_getD {marks : Array Int} {var n : Nat} (h : (var : Int) ≤ marks.getD n (-1)) :
    n < marks.size := by
  by_contra hn
  rw [Array.getD_eq_getD_getElem?, Array.getElem?_eq_none (Nat.not_lt.mp hn), Option.getD_none] at h
  omega

theorem mem_placedFor {m : Marks} {var n : Nat} : n ∈ m.placedFor var ↔ (var : Int) ≤ m.placed.getD n (-1) := by
  rw [placedFor, Finset.mem_filter, Finset.mem_range, and_iff_right_of_imp lt_size_of_le_getD]

theorem mem_queuedFor {m : Marks} {var n : Nat} : n ∈ m.queuedFor var ↔ (var : Int) ≤ m.queued.getD n (-1) := by
  rw [queuedFor, Finset.mem_filter, Finset.mem_range, and_iff_right_of_imp lt_size_of_le_getD]

theorem le_getD_setIfInBounds {marks : Array Int} {var n k : Nat} (hn : n < marks.size) :
    (var : Int) ≤ (marks.setIfInBounds n var).getD k (-1) ↔ k = n ∨ (var : Int) ≤ marks.getD k (-1) := by
  rw [Array.getD_eq_getD_getElem?, Array.getD_eq_getD_getElem?, Array.getElem?_setIfInBounds]
  by_cases hk : n = k
  · simp [hk, hk ▸ hn]
  · simp [hk, Ne.symm hk]

theorem placedFor_place {m : Marks} {var n : Nat} (hn : n < m.placed.size) :
    (m.place var n).placedFor var = insert n (m.placedFor var) := by
  ext k
  rw [Finset.mem_insert, mem_placedFor, mem_placedFor, place, le_getD_setIfInBounds hn]

theorem queuedFor_queue {m : Marks} {var n : Nat} (hn : n < m.queued.size) :
    (m.queue var n).queuedFor var = insert n (m.queuedFor var) := by
  ext k
  rw [Finset.mem_insert, mem_queuedFor, mem_queuedFor, queue, le_getD_setIfInBounds hn]

theorem not_lt_getD_setIfInBounds {marks : Array Int} {var n k : Nat}
    (h : ¬ ((var + 1 : Nat) : Int) ≤ marks.getD k (-1)) :
    ¬ ((var + 1 : Nat) : Int) ≤ (marks.setIfInBounds n var).getD k (-1) := by
  rw [Array.getD_eq_getD_getElem?, Array.getElem?_setIfInBounds]
  rw [Array.getD_eq_getD_getElem?] at h
  split
  · split
    · simp
    · simp only [Option.getD_none]
      omega
  · exact h

theorem below_iff {m : Marks} {var : Nat} : m.Below var ↔
    ∀ n, ¬ (var : Int) ≤ m.placed.getD n (-1) ∧ ¬ (var : Int) ≤ m.queued.getD n (-1) := by
  simp only [Below, Finset.eq_empty_iff_forall_notMem, mem_placedFor, mem_queuedFor, forall_and]

theorem Below.place {m : Marks} {var : Nat} (h : m.Below (var + 1)) (n : Nat) : (m.place var n).Below (var + 1) :=
  below_iff.mpr fun k => ⟨not_lt_getD_setIfInBounds (below_iff.mp h k).1, (below_iff.mp h k).2⟩

theorem Below.queue {m : Marks} {var : Nat} (h : m.Below (var + 1)) (n : Nat) : (m.queue var n).Below (var + 1) :=
  below_iff.mpr fun k => ⟨(below_iff.mp h k).1, not_lt_getD_setIfInBounds (below_iff.mp h k).2⟩

theorem Below.succ {m : Marks} {var : Nat} (h : m.Below var) : m.Below (var + 1) :=
  below_iff.mpr fun k => by
    obtain ⟨hplaced, hqueued⟩ := below_iff.mp h k
    constructor <;> omega

theorem below_start (blocks : Nat) : (start blocks).Below 0 := by
  refine below_iff.mpr fun k => ?_
  simp only [start, Array.getD_eq_getD_getElem?, Array.getElem?_replicate]
  split <;> simp

theorem foldl_queue {m : Marks} {var : Nat} {stores : List Nat} (hstores : ∀ n ∈ stores, n < m.queued.size)
    (h : m.Below (var + 1)) : ∃ queued, stores.foldl (queue var) m =
      { m with queued := queued, worklist := stores.reverse ++ m.worklist } ∧ queued.size = m.queued.size ∧
      (stores.foldl (queue var) m).Below (var + 1) ∧
      (stores.foldl (queue var) m).queuedFor var = stores.toFinset ∪ m.queuedFor var := by
  induction stores generalizing m with
  | nil => exact ⟨m.queued, rfl, rfl, h, by simp⟩
  | cons n rest ih =>
    obtain ⟨hn, hrest⟩ := List.forall_mem_cons.mp hstores
    obtain ⟨queued, heq, hsize, hbelow, hqueued⟩ := ih (m := m.queue var n) (by simpa [queue] using hrest) (h.queue n)
    refine ⟨queued, ?_, ?_, hbelow, ?_⟩
    · rw [List.foldl_cons, heq]
      simp [queue]
    · simpa [queue] using hsize
    · rw [List.foldl_cons, hqueued, queuedFor_queue hn, List.toFinset_cons, Finset.union_insert, Finset.insert_union]

end Marks

/-- How far the placement of the phis of a variable is, where `current` is being looked at. -/
structure Placing (t : Tour) (frontier : Array (List Nat)) (var : Nat) (ps : List (BlockId × Nat))
    (current : Option Nat) (m : Marks) : Prop where
  valid : Placed t ps
  distinct : ps.Nodup
  size_placed : m.placed.size = t.preorder.length
  size_queued : m.queued.size = t.preorder.length
  below : m.Below (var + 1)
  placed : ∀ n, n ∈ m.placedFor var ↔ HasPhi t ps n var
  iterated : ∀ n ∈ m.placedFor var, Iterated t frontier var n
  stores : ∀ n, Stores t n var → n ∈ m.queuedFor var
  queued : ∀ n ∈ m.placedFor var, n ∈ m.queuedFor var
  sources : ∀ n ∈ m.queuedFor var, Stores t n var ∨ Iterated t frontier var n
  waiting : ∀ n ∈ m.worklist, n ∈ m.queuedFor var
  looked : ∀ n ∈ m.queuedFor var, n ∈ m.worklist ∨ some n = current ∨ ∀ k ∈ frontier.getD n [], k ∈ m.placedFor var

section Placing

variable {g : FlowGraph} {frontier : Array (List Nat)} {var count : Nat} {ps : List (BlockId × Nat)}
  {current : Option Nat} {m : Marks}

theorem Placing.card_le (h : Placing t frontier var ps current m) :
    (m.queuedFor var).card ≤ t.preorder.length := by
  rw [← h.size_queued]
  exact (Finset.card_filter_le _ _).trans_eq (Finset.card_range _)

/-- Whatever else is known of the phis so far stays as it is: only phis of the variable are added. -/
def Adds (var : Nat) (ps ps' : List (BlockId × Nat)) : Prop := ∃ qs, ps' = ps ++ qs ∧ ∀ q ∈ qs, q.2 = var

theorem Adds.refl : Adds var ps ps := ⟨[], by simp, by simp⟩

theorem Adds.trans {ps' ps'' : List (BlockId × Nat)} (h : Adds var ps ps') (h' : Adds var ps' ps'') :
    Adds var ps ps'' := by
  obtain ⟨qs, rfl, hqs⟩ := h
  obtain ⟨qs', rfl, hqs'⟩ := h'
  refine ⟨qs ++ qs', by simp, fun q hq => ?_⟩
  obtain hq | hq := List.mem_append.mp hq
  · exact hqs q hq
  · exact hqs' q hq

/-- The graph that phis are placed in: the tree has been recorded, and phis have room for their inputs. -/
structure Ready (r : FlowGraph) (t : Tour) (g : FlowGraph) : Prop where
  touring : Touring r t []
  follows : InTourOrder t g
  inputs : ∀ b, (t.blocks[b.index]?).map Block.kind = some .join → (t.preds b).length < Edit.inputLimit

theorem inputs_lt (hr : Raw r) (hcatch : r.catchEntries = []) (ht : Touring r t [])
    (hsplit : ∀ b ∈ t.preorder, b ≠ FlowGraph.graphEntry → SplitAt r t b)
    (hjoin : (t.blocks[b.index]?).map Block.kind = some .join) : (t.preds b).length < Edit.inputLimit := by
  have hnodup := nodup_preds hr hcatch ht hsplit hjoin
  have hsub : t.preds b ⊆ t.preorder := fun p hp => ht.known b p hp
  have hle := (List.subperm_of_subset hnodup hsub).length_le
  have hsize := ht.length_le
  have hkeys := hr.size
  have hlimit : keyLimit < Edit.inputLimit := by decide
  omega

theorem ends_placePhi (h : Ready r t g) (hvar : var < count) (hp : Placing t frontier var ps current m) {n : Nat}
    (hn : n < t.preorder.length) (hiterated : Iterated t frontier var n) :
    Ends False (Refused t frontier count) (withPhis t g ps) (placePhi var m n) fun m' g' => ∃ ps',
      g' = withPhis t g ps' ∧ Adds var ps ps' ∧ Placing t frontier var ps' current m' ∧ n ∈ m'.placedFor var ∧
      m.placedFor var ⊆ m'.placedFor var ∧
      m'.worklist.length + (m.queuedFor var).card = m.worklist.length + (m'.queuedFor var).card := by
  unfold placePhi
  by_cases hmem : n ∈ m.placedFor var
  · rw [if_pos (Marks.mem_placedFor.mp hmem), Ends.pure_iff]
    exact ⟨ps, rfl, .refl, hp, hmem, fun _ h => h, rfl⟩
  obtain ⟨b, hb⟩ : ∃ b, t.preorder[n]? = some b := ⟨_, List.getElem?_eq_getElem hn⟩
  have hbmem : b ∈ t.preorder := List.mem_of_getElem? hb
  have hat : blockAt (withPhis t g ps) n = .ok b := by
    unfold blockAt itemAt
    rw [orFault_eq_ok]
    show g.preorder[n]? = some b
    rw [h.follows.preorder, hb]
  obtain ⟨k, hk⟩ := exists_block_of_mem h.touring h.follows hbmem
  obtain ⟨k', hk', hkind, hpreds, -⟩ := h.follows.block b k hk
  have hblock : (withPhis t g ps).block b = .ok { k with phis := k.phis ++ phiIds g.nodes.size ps b } := by
    rw [FlowGraph.block_eq_ok, blocks_withPhis, hk]
    rfl
  have hjoin : (withPhis t g ps).isJoin b = .ok (k'.kind == .join) := by
    unfold FlowGraph.isJoin FlowGraph.kind
    rw [hblock, ← hkind]
    rfl
  have hcount : (withPhis t g ps).preds b = .ok (t.preds b) := by
    unfold FlowGraph.preds
    rw [hblock, Tour.preds_eq hk' hbmem, ← hpreds]
    rfl
  rw [if_neg (mt Marks.mem_placedFor.mpr hmem), Ends.bind_iff, Ends.getThe_iff, Ends.bind_iff, Ends.read_iff, hat,
    Yields.ok_iff, Ends.bind_iff, Ends.read_iff, hjoin, Yields.ok_iff]
  by_cases hkj : k'.kind = .join
  case neg =>
    simp only [hkj, Bool.not_eq_true', beq_eq_false_iff_ne, ne_eq, not_false_eq_true, if_true, Ends.bind_iff,
      Ends.giveUp_iff]
    exact ⟨var, n, b, hvar, hiterated, hb, by simp [hk', hkj], rfl⟩
  have hkindb : (t.blocks[b.index]?).map Block.kind = some .join := by rw [hk', Option.map_some, hkj]
  simp only [hkj, beq_self_eq_true, Bool.not_true, Bool.false_eq_true, if_false, Ends.bind_iff, Ends.read_iff,
    hcount, Yields.ok_iff, Ends.discard_iff, Ends.lift_iff]
  refine (leads_addPhi ?_ (h.inputs b hkindb)).mono ?_
  · exact (Array.getElem?_eq_some_iff.mp hk).1
  rintro _ _ rfl
  have hadds : Adds var ps (ps ++ [(b, var)]) := ⟨[(b, var)], rfl, by simp⟩
  have hvalid : Placed t (ps ++ [(b, var)]) := by
    intro c v hc
    obtain hc | hc := List.mem_append.mp hc
    · exact hp.valid c v hc
    · obtain ⟨rfl, rfl⟩ := Prod.mk.inj (List.mem_singleton.mp hc)
      exact ⟨hbmem, hkindb⟩
  have hdistinct : (ps ++ [(b, var)]).Nodup := by
    refine List.nodup_append.mpr ⟨hp.distinct, List.nodup_singleton _, fun q hq q' hq' heq => hmem ?_⟩
    rw [List.mem_singleton.mp hq'] at heq
    exact (hp.placed n).mpr ⟨b, hb, heq ▸ hq⟩
  -- The phi is added and the block marked for it; only then is it seen whether the block goes onto the worklist.
  have hnow : (m.place var n).placedFor var = insert n (m.placedFor var) :=
    Marks.placedFor_place (hp.size_placed ▸ hn)
  have hplaced (k : Nat) : k ∈ (m.place var n).placedFor var ↔ HasPhi t (ps ++ [(b, var)]) k var := by
    rw [hnow, Finset.mem_insert, hp.placed]
    constructor
    · rintro (rfl | ⟨c, hc, hmem⟩)
      · exact ⟨b, hb, by simp⟩
      · exact ⟨c, hc, List.mem_append_left _ hmem⟩
    · rintro ⟨c, hc, hmem⟩
      obtain hmem | hmem := List.mem_append.mp hmem
      · exact .inr ⟨c, hc, hmem⟩
      · obtain ⟨rfl, -⟩ := Prod.mk.inj (List.mem_singleton.mp hmem)
        exact .inl (h.touring.getElem?_inj hc hb)
  have hsub : m.placedFor var ⊆ (m.place var n).placedFor var := hnow ▸ Finset.subset_insert n _
  have hself : n ∈ (m.place var n).placedFor var := hnow ▸ Finset.mem_insert_self n _
  have halliterated : ∀ k ∈ (m.place var n).placedFor var, Iterated t frontier var k := by
    rw [hnow, Finset.forall_mem_insert]
    exact ⟨hiterated, hp.iterated⟩
  have hsize : (m.place var n).placed.size = t.preorder.length := by
    simpa [Marks.place] using hp.size_placed
  have hlooked (k : Nat) (hk : ∀ l ∈ frontier.getD k [], l ∈ m.placedFor var) :
      ∀ l ∈ frontier.getD k [], l ∈ (m.place var n).placedFor var := fun l hl => hsub (hk l hl)
  split
  case isFalse hq =>
    have hq : n ∈ m.queuedFor var := Marks.mem_queuedFor.mpr (not_lt.mp hq)
    refine ⟨_, rfl, hadds, ⟨hvalid, hdistinct, hsize, hp.size_queued, hp.below.place n, hplaced, halliterated,
      hp.stores, ?_, hp.sources, hp.waiting, fun k hk => (hp.looked k hk).imp_right (Or.imp_right (hlooked k))⟩,
      hself, hsub, rfl⟩
    rw [hnow, Finset.forall_mem_insert]
    exact ⟨hq, hp.queued⟩
  case isTrue hq =>
    have hq : n ∉ m.queuedFor var := mt Marks.mem_queuedFor.mp (not_le.mpr hq)
    have hqueued : ((m.place var n).queue var n).queuedFor var = insert n (m.queuedFor var) :=
      Marks.queuedFor_queue (m := m.place var n) (hp.size_queued ▸ hn)
    have hgrown : m.queuedFor var ⊆ ((m.place var n).queue var n).queuedFor var :=
      hqueued ▸ Finset.subset_insert n _
    have hwaits : n ∈ ((m.place var n).queue var n).queuedFor var := hqueued ▸ Finset.mem_insert_self n _
    refine ⟨_, rfl, hadds, ⟨hvalid, hdistinct, hsize, by simpa [Marks.queue, Marks.place] using hp.size_queued,
      (hp.below.place n).queue n, hplaced, halliterated, fun k hk => hgrown (hp.stores k hk), ?_, ?_, ?_, ?_⟩,
      hself, hsub, ?_⟩
    · intro k hk
      obtain rfl | hk := Finset.mem_insert.mp (hnow ▸ hk)
      · exact hwaits
      · exact hgrown (hp.queued k hk)
    · rw [hqueued, Finset.forall_mem_insert]
      exact ⟨.inr hiterated, hp.sources⟩
    · exact List.forall_mem_cons.mpr ⟨hwaits, fun k hk => hgrown (hp.waiting k hk)⟩
    · rw [hqueued, Finset.forall_mem_insert]
      exact ⟨.inl List.mem_cons_self, fun k hk =>
        (hp.looked k hk).imp (List.mem_cons_of_mem n) (Or.imp_right (hlooked k))⟩
    · rw [hqueued, Finset.card_insert_of_notMem hq]
      simp only [Marks.queue, Marks.place, List.length_cons]
      omega

/-- The phis of a variable are where its values meet, and nowhere else. -/
structure Complete (t : Tour) (frontier : Array (List Nat)) (var : Nat) (ps : List (BlockId × Nat)) : Prop where
  closed : Closed t frontier ps var
  iterated : ∀ n, HasPhi t ps n var → Iterated t frontier var n

theorem Placing.complete (hp : Placing t frontier var ps none m) (hnone : m.worklist = []) :
    Complete t frontier var ps := by
  refine ⟨fun n hn k hk => ?_, fun n hn => hp.iterated n ((hp.placed n).mpr hn)⟩
  have hq : n ∈ m.queuedFor var := hn.elim (hp.stores n) fun hphi => hp.queued n ((hp.placed n).mpr hphi)
  obtain hw | hw | hw := hp.looked n hq
  · simp [hnone] at hw
  · cases hw
  · exact (hp.placed k).mp (hw k hk)

/-- The marks in front of a variable: none is for the variable or a later one, and nothing waits. -/
structure MarksBefore (t : Tour) (var : Nat) (m : Marks) : Prop where
  size_placed : m.placed.size = t.preorder.length
  size_queued : m.queued.size = t.preorder.length
  below : m.Below var
  worklist : m.worklist = []

theorem Placing.marksBefore (hp : Placing t frontier var ps none m) (hnone : m.worklist = []) :
    MarksBefore t (var + 1) m :=
  ⟨hp.size_placed, hp.size_queued, hp.below, hnone⟩

theorem ends_placeAll (h : Ready r t g) (hfrontier : ∀ n, ∀ m ∈ frontier.getD n [], m < t.preorder.length)
    (hvar : var < count) {steps : Nat} (hp : Placing t frontier var ps none m)
    (hsteps : m.worklist.length + (t.preorder.length - (m.queuedFor var).card) ≤ steps) :
    Ends False (Refused t frontier count) (withPhis t g ps) (placeAll frontier var steps m) fun m' g' => ∃ ps',
      g' = withPhis t g ps' ∧ Adds var ps ps' ∧ Placed t ps' ∧ ps'.Nodup ∧ Complete t frontier var ps' ∧
      MarksBefore t (var + 1) m' := by
  induction steps generalizing m ps with
  | zero =>
    have hnone : m.worklist = [] := List.eq_nil_of_length_eq_zero (by omega)
    exact ⟨ps, rfl, .refl, hp.valid, hp.distinct, hp.complete hnone, hp.marksBefore hnone⟩
  | succ steps ih =>
    unfold placeAll
    cases hwait : m.worklist with
    | nil => exact ⟨ps, rfl, .refl, hp.valid, hp.distinct, hp.complete hwait, hp.marksBefore hwait⟩
    | cons n rest =>
      rw [hwait] at hsteps
      simp only [List.length_cons] at hsteps
      simp only [Ends.bind_iff]
      have hsource : ∀ k ∈ frontier.getD n [], Iterated t frontier var k := fun k hk =>
        (hp.sources n (hp.waiting n (by simp [hwait]))).elim (fun hn => .store hn hk) fun hn => .again hn hk
      have hpop : Placing t frontier var ps (some n) { m with worklist := rest } := { hp with
        waiting := fun k hk => hp.waiting k (by simp [hwait, hk])
        looked := fun k hk => by
          obtain hw | hw | hw := hp.looked k hk
          · rw [hwait, List.mem_cons] at hw
            obtain rfl | hw := hw
            · exact .inr (.inl rfl)
            · exact .inl hw
          · cases hw
          · exact .inr (.inr hw) }
      refine (Ends.stepwise.foldlM (fun done m' g' => ∃ ps', g' = withPhis t g ps' ∧ Adds var ps ps' ∧
        Placing t frontier var ps' (some n) m' ∧ (∀ k ∈ done, k ∈ m'.placedFor var) ∧
        m'.worklist.length + (m.queuedFor var).card = rest.length + (m'.queuedFor var).card)
        ⟨ps, rfl, .refl, hpop, by simp, rfl⟩ ?_).mono ?_
      · rintro done k rest' m' _ hsplit ⟨ps', rfl, hadds, hp', hplaced, hlen⟩
        have hk : k ∈ frontier.getD n [] := by simp [hsplit]
        refine (ends_placePhi h hvar hp' (hfrontier n k hk) (hsource k hk)).mono ?_
        rintro m'' _ ⟨ps'', rfl, hadds', hp'', hk, hsub, hlen'⟩
        refine ⟨ps'', rfl, hadds.trans hadds', hp'', fun l hl => ?_, by omega⟩
        obtain hl | hl := List.mem_append.mp hl
        · exact hsub (hplaced l hl)
        · rwa [List.mem_singleton.mp hl]
      · rintro m' _ ⟨ps', rfl, hadds, hp', hplaced, hlen⟩
        have hq := hp.card_le
        have hq' := hp'.card_le
        have hlooked : Placing t frontier var ps' none m' := { hp' with
          looked := fun k hk => by
            obtain hw | hw | hw := hp'.looked k hk
            · exact .inl hw
            · exact .inr (.inr (by rw [Option.some_inj.mp hw]; exact hplaced))
            · exact .inr (.inr hw) }
        refine (ih hlooked (by omega)).mono ?_
        rintro _ _ ⟨ps'', rfl, hadds', hcomplete⟩
        exact ⟨ps'', rfl, hadds.trans hadds', hcomplete⟩

theorem ends_placeVariable (h : Ready r t g) (hfrontier : ∀ n, ∀ m ∈ frontier.getD n [], m < t.preorder.length)
    (hvar : var < count) (hvalid : Placed t ps) (hdistinct : ps.Nodup) (hnew : ∀ q ∈ ps, q.2 ≠ var)
    (hm : MarksBefore t var m) :
    Ends False (Refused t frontier count) (withPhis t g ps) (placeVariable frontier m var) fun m' g' => ∃ ps',
      g' = withPhis t g ps' ∧ Adds var ps ps' ∧ Placed t ps' ∧ ps'.Nodup ∧ Complete t frontier var ps' ∧
      MarksBefore t (var + 1) m' := by
  have hassigned : (withPhis t g ps).assigned = t.assigned := h.follows.assigned
  have hpreorder : (withPhis t g ps).preorder = t.preorder := h.follows.preorder
  unfold placeVariable
  rw [Ends.bind_iff, Ends.getThe_iff]
  simp only [hassigned, hpreorder]
  have hmem (n : Nat) : n ∈ (List.range t.preorder.length).filter
      (fun n => (t.assigned.getD n {}).contains (var % 0x100000000)) ↔ n < t.preorder.length ∧ Stores t n var := by
    rw [List.mem_filter, List.mem_range]
    rfl
  have hnodup : ((List.range t.preorder.length).filter
      fun n => (t.assigned.getD n {}).contains (var % 0x100000000)).Nodup := List.nodup_range.filter _
  generalize (List.range t.preorder.length).filter (fun n => (t.assigned.getD n {}).contains (var % 0x100000000)) =
    stores at hmem hnodup
  have hbound (n : Nat) (hn : Stores t n var) : n < t.preorder.length := by
    by_contra hle
    have hnone : t.assigned[n]? = none := by simpa [h.touring.assigned_size] using hle
    simp [Stores, Array.getD_eq_getD_getElem?, hnone, NumberSet.contains] at hn
  have hknown (n : Nat) (hn : n ∈ stores) : n < m.queued.size := hm.size_queued ▸ ((hmem n).mp hn).1
  obtain ⟨queued, heq, hsize, hbelow, hqueued⟩ := Marks.foldl_queue hknown hm.below.succ
  rw [hm.below.2, Finset.union_empty] at hqueued
  rw [hm.worklist, List.append_nil] at heq
  have hnone : (stores.foldl (Marks.queue var) m).placedFor var = ∅ := by
    rw [heq]
    exact hm.below.1
  have hstart : Placing t frontier var ps none (stores.foldl (Marks.queue var) m) := {
    valid := hvalid
    distinct := hdistinct
    size_placed := by rw [heq]; exact hm.size_placed
    size_queued := by rw [heq]; exact hsize.trans hm.size_queued
    below := hbelow
    placed := by
      intro n
      simp only [hnone, Finset.notMem_empty, false_iff]
      rintro ⟨b, -, hb⟩
      exact hnew (b, var) hb rfl
    iterated := by simp [hnone]
    stores := fun n hn => by
      rw [hqueued, List.mem_toFinset, hmem]
      exact ⟨hbound n hn, hn⟩
    queued := by simp [hnone]
    sources := fun n hn => by
      rw [hqueued, List.mem_toFinset, hmem] at hn
      exact .inl hn.2
    waiting := fun n hn => by
      rw [heq, List.mem_reverse] at hn
      rwa [hqueued, List.mem_toFinset]
    looked := fun n hn => .inl (by
      rw [hqueued, List.mem_toFinset] at hn
      rwa [heq, List.mem_reverse]) }
  refine ends_placeAll h hfrontier hvar hstart ?_
  have hle := hstart.card_le
  rw [hqueued, List.toFinset_card_of_nodup hnodup] at hle ⊢
  rw [heq, List.length_reverse]
  omega

/-- Phis of all variables are where the values of the variable meet, unless a block there is no join. -/
theorem ends_insertPhis (h : Ready r t g) (hcount : g.variableCount = .ok count)
    (hfrontier : ∀ n, ∀ m ∈ frontier.getD n [], m < t.preorder.length) :
    Ends False (Refused t frontier count) g (insertPhis frontier) fun _ g' => ∃ ps, g' = withPhis t g ps ∧ Placed t ps ∧
      ps.Nodup ∧ (∀ q ∈ ps, q.2 < count) ∧ ∀ v < count, Complete t frontier v ps := by
  unfold insertPhis
  rw [Ends.bind_iff, Ends.getThe_iff, Ends.bind_iff, Ends.read_iff, hcount, Yields.ok_iff, h.follows.preorder,
    Ends.discard_iff]
  refine (Ends.stepwise.foldlM (fun done m g' => ∃ ps, g' = withPhis t g ps ∧ Placed t ps ∧ ps.Nodup ∧
    (∀ q ∈ ps, q.2 ∈ done) ∧ (∀ v ∈ done, Complete t frontier v ps) ∧ MarksBefore t done.length m)
    ⟨[], ?_, by simp [Placed], List.nodup_nil, by simp, by simp, ?_⟩ ?_).mono ?_
  · exact (withPhis_nil g).symm
  · exact ⟨by simp [Marks.start], by simp [Marks.start], Marks.below_start _, rfl⟩
  · rintro done v rest m _ hrange ⟨ps, rfl, hvalid, hdistinct, hdone, hcomplete, hmarks⟩
    have hvdone : v ∉ done := by
      have hnodup : (done ++ v :: rest).Nodup := hrange ▸ List.nodup_range
      exact fun hv => (List.nodup_append.mp hnodup).2.2 v hv v List.mem_cons_self rfl
    have hvar : v < count := List.mem_range.mp (by simp [hrange])
    have hv : done.length = v := by
      have hget : (List.range count)[done.length]? = some v := by simp [hrange]
      simpa using (List.getElem?_eq_some_iff.mp hget).2
    have hnew : ∀ q ∈ ps, q.2 ≠ v := fun q hq hqv => hvdone (hqv ▸ hdone q hq)
    refine (ends_placeVariable h hfrontier hvar hvalid hdistinct hnew (hv ▸ hmarks)).mono ?_
    rintro m' _ ⟨ps', rfl, ⟨qs, rfl, hqs⟩, hvalid', hdistinct', hcomplete', hmarks'⟩
    refine ⟨_, rfl, hvalid', hdistinct', fun q hq => ?_, fun u hu => ?_, by simpa [hv] using hmarks'⟩
    · obtain hq | hq := List.mem_append.mp hq
      · exact List.mem_append_left _ (hdone q hq)
      · simp [hqs q hq]
    · obtain hu | hu := List.mem_append.mp hu
      · -- The new phis are of another variable.
        have hsame (n : Nat) : HasPhi t (ps ++ qs) n u ↔ HasPhi t ps n u := by
          refine exists_congr fun b => and_congr_right fun _ => ?_
          rw [List.mem_append, or_iff_left]
          intro hmem
          have huv : u = v := hqs (b, u) hmem
          exact hvdone (huv ▸ hu)
        refine ⟨fun n hn m hm => ?_, fun n hn => (hcomplete u hu).iterated n ((hsame n).mp hn)⟩
        rw [hsame] at hn ⊢
        exact (hcomplete u hu).closed n hn m hm
      · rwa [List.mem_singleton.mp hu]
  · rintro m _ ⟨ps, rfl, hvalid, hdistinct, hdone, hcomplete, -⟩
    exact ⟨ps, rfl, hvalid, hdistinct, fun q hq => List.mem_range.mp (hdone q hq),
      fun v hv => hcomplete v (List.mem_range.mpr hv)⟩

end Placing

end Ssa

end Midend
