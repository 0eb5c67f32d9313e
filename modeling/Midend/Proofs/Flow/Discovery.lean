import Midend.Proofs.Flow.Exact
import Midend.Proofs.Flow.Rediscovery

/-! # Discovery is exact

Whatever an earlier discovery has left in a graph, the two orders have exactly the blocks that can be reached, and the
predecessor lists every edge between them once. The blocks that others were found from form a tree, in which an edge to
a block with a greater number always leads down. Of a stored slot, the sets have the low 32 bits.
-/

namespace Midend

open Midend.Flow

/-- What `g'` has recorded of its blocks is exact for the edges and stores of `g`. -/
structure ExactOrder (g g' : FlowGraph) : Prop where
  same : SameInsts g g'
  preorder_nodup : g'.preorder.Nodup
  mem_preorder : ∀ b, b ∈ g'.preorder ↔ g.Reachable b
  postorder_nodup : g'.postorder.Nodup
  mem_postorder : ∀ b, b ∈ g'.postorder ↔ g.Reachable b
  reversePostorder : g'.reversePostorder = g'.postorder.reverse
  /-- The blocks have the numbers of their places, the others none. -/
  numbers : ∀ (b : BlockId) (k : Block) (n : Nat), g'.blocks[b.index]? = some k →
    (k.preorderNumber = some n ↔ g'.preorder[n]? = some b) ∧ (k.postorderNumber = some n ↔ g'.postorder[n]? = some b)
  /-- A predecessor is listed once for each edge, and lists are in the order of keys. -/
  preds : ∀ b, g.Reachable b → ∃ k, g'.blocks[b.index]? = some k ∧ InKeyOrder k.preds ∧
    (∀ p ∈ k.preds, g.Reachable p) ∧ ∀ p, g.Reachable p → k.preds.count p = (g.next p).count b
  parents_size : g'.parents.size = g'.preorder.length
  parent_entry : g'.parents[0]? = some none
  parent : ∀ n, 0 < n → n < g'.preorder.length → ∃ m p b, g'.parents[n]? = some (some m) ∧ m < n ∧
    g'.preorder[m]? = some p ∧ g'.preorder[n]? = some b ∧ g.Edge p b
  /-- An edge to a greater number leads to a descendant. -/
  forward : ∀ (m n : Nat) (p b : BlockId), g'.preorder[m]? = some p → g'.preorder[n]? = some b → g.Edge p b → m < n →
    Above g'.parents n m
  assigned_size : g'.assigned.size = g'.preorder.length
  assigned : ∀ (n : Nat) (b : BlockId), g'.preorder[n]? = some b →
    ∃ slots : NumberSet, g'.assigned[n]? = some slots ∧ ∀ s, slots.contains s = true ↔ StoresIn g (g.insts b) s

namespace Flow

variable {g : FlowGraph} {t : Tour}

theorem up_iff {parents : Array (Option Nat)} {n m : Nat} : Up parents n m ↔ parents[n]? = some (some m) := by
  unfold Up
  exact Option.join_eq_some_iff

theorem exactOrder_onTour (ht : Touring g t []) (hordered : PredsInOrder (onTour g t)) : ExactOrder g (onTour g t) := by
  have hperm : t.postorder.Perm t.preorder := ht.opened
  have hreachable (b : BlockId) : b ∈ t.preorder ↔ g.Reachable b := ht.mem_preorder_iff_reachable
  constructor
  case same => exact ⟨rfl, rfl, rfl⟩
  case preorder_nodup => exact ht.nodup
  case mem_preorder => exact hreachable
  case postorder_nodup => exact hperm.nodup_iff.mpr ht.nodup
  case mem_postorder => exact fun b => hperm.mem_iff.trans (hreachable b)
  case reversePostorder => rfl
  case numbers => exact fun b k n hk => ⟨ht.number b k n hk, ht.closed b k n hk⟩
  case preds =>
    intro b hb
    have hmem : b ∈ t.preorder := (hreachable b).mpr hb
    obtain ⟨k, hk⟩ := ht.exists_block (ht.inRange b hmem)
    have hpreds : k.preds = t.preds b := (Tour.preds_eq hk hmem).symm
    refine ⟨k, hk, hordered b k hk ((ht.mem_preorder_iff hk).mp hmem), fun p hp => ?_, fun p hp => ?_⟩
    · exact (hreachable p).mp (ht.known b p (hpreds ▸ hp))
    · rw [hpreds, ht.count_preds ((hreachable p).mpr hp)]
  case parents_size => exact ht.parents_size
  case parent_entry =>
    have hsize : 0 < t.parents.size := by
      rw [ht.parents_size]
      exact (List.getElem?_eq_some_iff.mp ht.entry).1
    show t.parents[0]? = some none
    cases hparent : t.parents[0] with
    | none => rw [Array.getElem?_eq_getElem hsize, hparent]
    | some m =>
      have hup : Up t.parents 0 m := up_iff.mpr (by rw [Array.getElem?_eq_getElem hsize, hparent])
      exact absurd (ht.parent_pred 0 m hup).1 (Nat.not_lt_zero m)
  case parent =>
    intro n hpos hn
    obtain ⟨m, hup⟩ := ht.parent n hpos hn
    obtain ⟨hlt, p, b, hp, hb, hmem⟩ := ht.parent_pred n m hup
    exact ⟨m, p, b, up_iff.mp hup, hlt, hp, hb, (ht.mem_preds_iff.mp hmem).2⟩
  case forward =>
    intro m n p b hp hb hedge hlt
    exact ht.deepening.forward m n ⟨p, b, hp, hb, ht.mem_preds_iff.mpr ⟨List.mem_of_getElem? hp, hedge⟩⟩ hlt
  case assigned_size => exact ht.assigned_size
  case assigned => exact ht.assigned

/-- Discovery ends where nothing that it looks up is missing, and what it then has recorded is exact. -/
theorem discovery_exact (g : FlowGraph) :
    (g.Walkable → ∃ g', discover g = .ok ((), g')) ∧ ∀ g', discover g = .ok ((), g') → ExactOrder g g' := by
  constructor
  · intro hg
    obtain ⟨⟨_, g'⟩, hrun, -⟩ := Yields.exists_ok (leads_discover (.inr hg))
    exact ⟨g', hrun⟩
  · intro g' hrun
    obtain ⟨⟨t, rfl, ht⟩, hordered⟩ := ((leads_discover (.inl trivial)).and leads_discover_inOrder).post_of_ok hrun
    exact exactOrder_onTour ht hordered

/-- The graph without the way from block 5 into the loop: a jump has taken the place of the branch. -/
def withoutLoop (g : FlowGraph) : FlowGraph := g.withNode ⟨5⟩ fun n => { n with inst := .goto ⟨7⟩ }

/-- What discovery leaves of a graph, and what it leaves when the graph has changed in between. -/
def rediscovered (g : FlowGraph) : Option (FlowGraph × FlowGraph) := do
  let (_, g₁) ← (discover g).toOption
  let (_, g₂) ← (discover (withoutLoop g₁)).toOption
  return (g₁, g₂)

/-- The second discovery leaves nothing of the first one. -/
theorem crossing_rediscovered : ∃ b g g₁ g₂, Command.script crossing FlowGraph.normalEntry (FlowGraph.new "f" 1 0) =
    some (b, g) ∧ g.Walkable ∧ discover g = .ok ((), g₁) ∧ discover (withoutLoop g₁) = .ok ((), g₂) ∧
    g₂.preorder.map BlockId.index = [0, 1, 3, 5, 7, 8, 2, 4] ∧ ExactOrder g g₁ ∧ ExactOrder (withoutLoop g₁) g₂ := by
  have hcompute : ((Command.script crossing FlowGraph.normalEntry (FlowGraph.new "f" 1 0)).map fun r =>
      (r.2.catchEntries, (rediscovered r.2).map fun q => q.2.preorder.map BlockId.index)) =
        some ([], some [0, 1, 3, 5, 7, 8, 2, 4]) := by decide +kernel
  obtain ⟨⟨b, g⟩, hscript, hcomputed⟩ := Option.map_eq_some_iff.mp hcompute
  obtain ⟨hcatch, hcomputed⟩ := Prod.mk.inj hcomputed
  obtain ⟨⟨g₁, g₂⟩, hrediscovered, horder⟩ := Option.map_eq_some_iff.mp hcomputed
  obtain ⟨⟨_, g₁'⟩, hfirst, hrest⟩ := Option.bind_eq_some_iff.mp hrediscovered
  obtain ⟨⟨_, g₂'⟩, hsecond, hrest'⟩ := Option.bind_eq_some_iff.mp hrest
  obtain ⟨rfl, rfl⟩ := Prod.mk.inj (Option.some_inj.mp hrest')
  have hstart : Built FlowGraph.normalEntry (FlowGraph.new "f" 1 0) := @Built.start "f" 1 0 none (by decide)
  have hwalkable : g.Walkable := (hstart.script hscript).raw.1.walkable hcatch
  obtain ⟨g₁, hrun⟩ := (discovery_exact g).1 hwalkable
  obtain rfl : g₁ = g₁' := (Prod.mk.inj (Except.ok.inj (hrun.symm.trans (toOption_eq_some_iff.mp hfirst)))).2
  have hagain := toOption_eq_some_iff.mp hsecond
  exact ⟨b, g, g₁, g₂', hscript, hwalkable, hrun, hagain, horder, (discovery_exact g).2 g₁ hrun,
    (discovery_exact (withoutLoop g₁)).2 g₂' hagain⟩

/-! ## Slots with high bits -/

/-- A store to a slot that does not fit into 32 bits. -/
def farStore : List Command := [.inst (.loadLocal 0), .inst (.storeLocal 0x100000001 ⟨0⟩), .inst (.unary .ret ⟨0⟩)]

def discovered (commands : List Command) (parameterCount : Nat) : Option (FlowGraph × FlowGraph) :=
  (do
    let (_, g) ← Build.run (commands.forM Command.run) (FlowGraph.new "f" parameterCount 0)
    let (_, g') ← discover g
    return (g, g')).toOption

/-- Whether all blocks that instructions name are there, no store is to slot 1, and slot 1 is in the set of the second
block. -/
def farStoreHolds (g g' : FlowGraph) : Bool :=
  FlowGraph.normalEntry.index < g.blocks.size &&
    g.nodes.all (fun n => n.inst.successors.all (·.index < g.blocks.size) &&
      (n.inst.opcode != .storeLocal || n.inst.slot? != some 1)) &&
    g'.preorder[1]? == some FlowGraph.normalEntry && (g'.assigned[1]?).any (·.contains 1)

/-- The set of a block has slot 1, although the block stores to no slot of that number. -/
theorem farStore_in_slot_one : ∃ g g', discover g = .ok ((), g') ∧ FlowGraph.normalEntry.index < g.blocks.size ∧
    (∀ n ∈ g.nodes, ∀ s ∈ n.inst.successors, s.index < g.blocks.size) ∧ g'.preorder[1]? = some FlowGraph.normalEntry ∧
    (∃ slots, g'.assigned[1]? = some slots ∧ slots.contains 1 = true) ∧
    ∀ n ∈ g.nodes, ∀ v, n.inst ≠ .storeLocal 1 v := by
  have hcompute : (discovered farStore 2).map (fun r => farStoreHolds r.1 r.2) = some true := by decide +kernel
  obtain ⟨⟨g, g'⟩, hdiscovered, hholds⟩ := Option.map_eq_some_iff.mp hcompute
  obtain ⟨⟨_, g₀⟩, -, hrest⟩ := bind_eq_ok.mp (toOption_eq_some_iff.mp hdiscovered)
  obtain ⟨⟨_, g₁⟩, hrun, heq⟩ := bind_eq_ok.mp hrest
  obtain ⟨rfl, rfl⟩ := Prod.mk.inj (pure_eq_ok.mp heq)
  simp only [farStoreHolds, Bool.and_eq_true, decide_eq_true_eq, beq_iff_eq, Option.any_eq_true,
    Array.all_eq_true_iff_forall_mem, List.all_eq_true] at hholds
  obtain ⟨⟨⟨hentry, hnodes⟩, hsecond⟩, hslot⟩ := hholds
  refine ⟨g₀, g₁, hrun, hentry, fun n hn => (hnodes n hn).1, hsecond, hslot, fun n hn v heq => ?_⟩
  have hnot := (hnodes n hn).2
  simp [heq, Inst.opcode, Inst.slot?] at hnot

end Flow

end Midend
