import Midend.Proofs.Flow.Exact

/-! # Frontiers are exact

The frontier of a block is where what it dominates ends. The computed frontiers are these, but for the graph entry,
which is only in one if two edges lead to it. Where no edge leads to the entry, the rows that are returned have exactly
the numbers of the frontiers.
-/

namespace Midend

open Midend.Flow

namespace FlowGraph

variable {g g' : FlowGraph} {a c : BlockId}

/-- An edge leads to `c` from a block that `a` dominates, but `a` does not dominate `c` from above. -/
def InFrontier (g : FlowGraph) (a c : BlockId) : Prop :=
  ∃ p, g.Reachable p ∧ g.Edge p c ∧ g.Dominates a p ∧ ¬ (a ≠ c ∧ g.Dominates a c)

theorem InFrontier.reachable (h : g.InFrontier a c) : g.Reachable a ∧ g.Reachable c := by
  obtain ⟨p, hp, hedge, hdom, -⟩ := h
  exact ⟨hdom.reachable hp, hp.tail hedge⟩

theorem inFrontier_congr (h : ∀ b, g'.next b = g.next b) : g'.InFrontier a c ↔ g.InFrontier a c := by
  have hedge : g'.Edge = g.Edge := by
    funext p b
    unfold Edge
    rw [h]
  simp only [InFrontier, Reachable, Dominates, hedge, isPath_congr fun b _ => h b]

end FlowGraph

namespace Flow

variable {r : FlowGraph} {t : Tour} {a c p : BlockId} {m n k e : Nat}

theorem lt_size_predNumbers (hn : t.preorder[n]? = some c) : n < t.predNumbers.size := by
  rw [Tour.size_predNumbers]
  exact (List.getElem?_eq_some_iff.mp hn).1

variable (ht : Touring r t [])

include ht

theorem length_predNumbers (hn : t.preorder[n]? = some c) :
    (t.predNumbers.getD n []).length = (t.preds c).length := by
  have hrow : t.predNumbers.getD n [] = (t.preds c).filterMap t.number? := by
    simp [Tour.predNumbers, Array.getD_eq_getD_getElem?, hn]
  rw [hrow, List.filterMap_length_eq_length]
  intro p hp
  obtain ⟨k, hk⟩ := List.mem_iff_getElem?.mp (ht.known c p hp)
  rw [ht.number?_eq_some_iff.mpr hk]
  rfl

theorem not_dominates_iff_below (hm : t.preorder[m]? = some a) (hn : t.preorder[n]? = some c) (hup : Up t.tree n e)
    (hk : k ∈ t.predNumbers.getD n []) (habove : Above t.tree k m) :
    ¬ (a ≠ c ∧ FlowGraph.Dominates r a c) ↔ e < m := by
  have hlt : e < n := (ht.rooted.idom_spec hup).1
  constructor
  · intro hnot
    have hnotAbove : ¬ Above t.tree e m := by
      intro hem
      have hle : m ≤ e := ht.rooted.falling_idoms.le hem
      refine hnot ⟨?_, (dominates_iff_above ht hm hn).mpr (hem.head hup)⟩
      rintro rfl
      have := ht.getElem?_inj hm hn
      omega
    obtain hme | hem := Above.total habove (ht.rooted.above_idoms_of_pred hup hk)
    · refine ht.rooted.falling_idoms.lt hme ?_
      rintro rfl
      exact hnotAbove .refl
    · exact absurd hem hnotAbove
  · rintro hem ⟨hne, hdom⟩
    obtain rfl | ⟨e', hup', hem'⟩ := ((dominates_iff_above ht hm hn).mp hdom).cases_head
    · exact hne (by simpa [hm] using hn)
    · obtain rfl := Up.unique hup hup'
      exact absurd (ht.rooted.falling_idoms.le hem') (Nat.not_le.mpr hem)

theorem one_lt_preds_of_inFrontier (hentry : c ≠ FlowGraph.graphEntry) (h : r.InFrontier a c) :
    1 < (t.preds c).length := by
  obtain ⟨m, hm⟩ := List.mem_iff_getElem?.mp (ht.mem_preorder_iff_reachable.mpr h.reachable.1)
  obtain ⟨n, hn⟩ := List.mem_iff_getElem?.mp (ht.mem_preorder_iff_reachable.mpr h.reachable.2)
  obtain ⟨q, hq, hedge, hdom, hnot⟩ := h
  have hqmem : q ∈ t.preorder := ht.mem_preorder_iff_reachable.mpr hq
  obtain ⟨k, hk⟩ := List.mem_iff_getElem?.mp hqmem
  have hpred : k ∈ t.predNumbers.getD n [] :=
    ht.mem_predNumbers_iff.mpr ⟨q, c, hk, hn, ht.mem_preds_iff.mpr ⟨hqmem, hedge⟩⟩
  obtain ⟨d, hd⟩ := ht.exists_idom? (List.mem_of_getElem? hn) hentry
  obtain ⟨n', e, hn', -, hup⟩ := ht.exists_numbers hd
  obtain rfl := ht.getElem?_inj hn hn'
  have habove : Above t.tree k m := (dominates_iff_above ht hm hk).mp hdom
  have hlt : e < m := (not_dominates_iff_below ht hm hn hup hpred habove).mp hnot
  rw [← length_predNumbers ht hn]
  by_contra hle
  -- The only predecessor would be the dominator.
  have hone : t.predNumbers.getD n [] = [k] := by
    obtain ⟨x, hx⟩ := List.length_eq_one_iff.mp (Nat.le_antisymm (Nat.not_lt.mp hle) (List.length_pos_of_mem hpred))
    rw [hx, List.mem_singleton] at hpred
    rw [hx, hpred]
  obtain rfl := ht.rooted.idom_eq_of_single_pred hup hone
  exact absurd (ht.rooted.falling_idoms.le habove) (Nat.not_le.mpr hlt)

theorem mem_frontiers_iff_inFrontier (hm : t.preorder[m]? = some a) (hn : t.preorder[n]? = some c) :
    n ∈ (frontiers t.predNumbers t.tree).getD m [] ↔ r.InFrontier a c ∧ 1 < (t.preds c).length := by
  rw [(mem_frontiers_iff ht.rooted.falling_idoms ht.rooted.bounded (lt_size_predNumbers hn) :
    n ∈ (frontiers t.predNumbers t.tree).getD m [] ↔ _), length_predNumbers ht hn, and_comm]
  refine and_congr_left fun _ => ?_
  have hbelow {k : Nat} (hk : k ∈ t.predNumbers.getD n []) (habove : Above t.tree k m) :
      (∀ d, Up t.tree n d → Above t.tree k d → d < m) ↔ ¬ (a ≠ c ∧ FlowGraph.Dominates r a c) := by
    by_cases hentry : c = FlowGraph.graphEntry
    · subst hentry
      refine iff_of_true (fun d hd _ => ?_) fun ⟨hne, hdom⟩ => hne (FlowGraph.dominates_graphEntry_iff.mp hdom)
      obtain rfl := ht.getElem?_inj hn ht.entry
      exact absurd (ht.rooted.idom_spec hd).1 (Nat.not_lt_zero d)
    · obtain ⟨d, hd⟩ := ht.exists_idom? (List.mem_of_getElem? hn) hentry
      obtain ⟨n', e, hn', -, hup⟩ := ht.exists_numbers hd
      obtain rfl := ht.getElem?_inj hn hn'
      rw [not_dominates_iff_below ht hm hn hup hk habove]
      exact ⟨fun h => h e hup (ht.rooted.above_idoms_of_pred hup hk), fun h d hd' _ => Up.unique hup hd' ▸ h⟩
  constructor
  · rintro ⟨k, hk, habove, hends⟩
    obtain ⟨q, c', hq, hc', hmem⟩ := ht.mem_predNumbers_iff.mp hk
    obtain rfl : c' = c := by simpa [hn] using hc'.symm
    obtain ⟨hqmem, hedge⟩ := ht.mem_preds_iff.mp hmem
    exact ⟨q, ht.mem_preorder_iff_reachable.mp hqmem, hedge, (dominates_iff_above ht hm hq).mpr habove,
      (hbelow hk habove).mp hends⟩
  · rintro ⟨q, hq, hedge, hdom, hnot⟩
    have hqmem : q ∈ t.preorder := ht.mem_preorder_iff_reachable.mpr hq
    obtain ⟨k, hk⟩ := List.mem_iff_getElem?.mp hqmem
    have hpred : k ∈ t.predNumbers.getD n [] :=
      ht.mem_predNumbers_iff.mpr ⟨q, c, hk, hn, ht.mem_preds_iff.mpr ⟨hqmem, hedge⟩⟩
    have habove : Above t.tree k m := (dominates_iff_above ht hm hk).mp hdom
    exact ⟨k, hpred, habove, (hbelow hpred habove).mpr hnot⟩

omit ht in
theorem exists_frontier_row {preds : Array (List Nat)} {idoms : Array (Option Nat)} (hn : n < preds.size) :
    ∃ row, (frontiers preds idoms)[n]? = some row ∧ (frontiers preds idoms).getD n [] = row ∧ row.Pairwise (· < ·) := by
  refine ⟨_, Array.getElem?_eq_getElem (by simpa [frontiers] using hn), ?_, ?_⟩
  · simp [frontiers, Array.getD_eq_getD_getElem?, hn]
  · simp only [frontiers, Array.getElem_map]
    exact List.pairwise_lt_range.filter _

theorem number_placed_iff {b : BlockId} {k : Block}
    (hk : ((onTour r t).mapBlocks (t.placed t.preorder)).blocks[b.index]? = some k) :
    k.preorderNumber = some n ↔ t.preorder[n]? = some b := by
  rw [FlowGraph.blocks_mapBlocks] at hk
  obtain ⟨k', hk', rfl⟩ := Option.map_eq_some_iff.mp hk
  rw [← ht.number b k' n hk']
  unfold Tour.placed
  split <;> rfl

end Flow

/-- The rows of `frontier` are the frontiers of the blocks that can be reached, by the numbers in `g'`. -/
structure ExactFrontiers (g g' : FlowGraph) (frontier : Array (List Nat)) : Prop where
  size : frontier.size = g'.preorder.length
  rows : ∀ x, g.Reachable x → ∃ k n row, g'.blocks[x.index]? = some k ∧ k.preorderNumber = some n ∧
    frontier[n]? = some row ∧ row.Pairwise (· < ·) ∧
    ∀ m, m ∈ row ↔ ∃ y l, g'.blocks[y.index]? = some l ∧ l.preorderNumber = some m ∧ g.InFrontier x y

namespace Flow

variable {g : FlowGraph} {t : Tour}

theorem exactFrontiers_placed (ht : Touring g t []) (hentry : ∀ p, g.Reachable p → ¬ g.Edge p FlowGraph.graphEntry) :
    ExactFrontiers g ((onTour g t).mapBlocks (t.placed t.preorder)) (frontiers t.predNumbers t.tree) := by
  have hblock {b : BlockId} (hb : b ∈ t.preorder) :
      ∃ k, ((onTour g t).mapBlocks (t.placed t.preorder)).blocks[b.index]? = some k := by
    obtain ⟨k, hk, -⟩ := (recorded_placed ht).2 b hb
    exact ⟨k, hk⟩
  refine ⟨?_, fun x hx => ?_⟩
  · show _ = t.preorder.length
    simp [frontiers]
  have hxmem : x ∈ t.preorder := ht.mem_preorder_iff_reachable.mpr hx
  obtain ⟨k, hk⟩ := hblock hxmem
  obtain ⟨n, hn⟩ := List.mem_iff_getElem?.mp hxmem
  obtain ⟨row, hrow, hget, hascending⟩ := exists_frontier_row (lt_size_predNumbers hn)
  refine ⟨k, n, row, hk, (number_placed_iff ht hk).mpr hn, hrow, hascending, fun m => ?_⟩
  rw [← hget]
  constructor
  · intro hmem
    have hm : m < t.preorder.length := by
      have hlt := (lt_of_mem_frontiers hmem).1
      rwa [Tour.size_predNumbers] at hlt
    have hy := List.getElem?_eq_getElem hm
    obtain ⟨l, hl⟩ := hblock (List.mem_of_getElem? hy)
    exact ⟨_, l, hl, (number_placed_iff ht hl).mpr hy, ((mem_frontiers_iff_inFrontier ht hn hy).mp hmem).1⟩
  · rintro ⟨y, l, hl, hm, hin⟩
    have hne : y ≠ FlowGraph.graphEntry := by
      rintro rfl
      obtain ⟨p, hp, hedge, -⟩ := hin
      exact hentry p hp hedge
    exact (mem_frontiers_iff_inFrontier ht hn ((number_placed_iff ht hl).mp hm)).mpr
      ⟨hin, one_lt_preds_of_inFrontier ht hne hin⟩

/-- Where no edge leads back to the graph entry, the frontiers that are returned are exact: self loops, parallel edges
and loops with several entries included. -/
theorem frontiers_exact (g : FlowGraph) (hentry : ∀ p, g.Reachable p → ¬ g.Edge p FlowGraph.graphEntry) :
    (g.Walkable → ∃ r, (discover >>= fun _ => computeDominators) g = .ok r) ∧
      ∀ frontier g', (discover >>= fun _ => computeDominators) g = .ok (frontier, g') →
        ExactFrontiers g g' frontier := by
  constructor
  · intro hg
    obtain ⟨r, hr, -⟩ := Yields.exists_ok (leads_dominators (.inr hg))
    exact ⟨r, hr⟩
  · intro frontier g' hrun
    obtain ⟨t, ht, rfl, rfl⟩ := (leads_dominators (.inl trivial)).post_of_ok hrun
    exact exactFrontiers_placed ht hentry

/-- The frontiers of the blocks by number, computed. -/
def frontiersOf (g : FlowGraph) : List (List Nat) :=
  match (discover >>= fun _ => computeDominators) g with
  | .ok (frontier, _) => frontier.toList
  | .error _ => []

/-- In preorder the blocks are 0, 1, 3, 5, 7, 8, 6, 4 and 2. Block 8 is in its own frontier, and each of the blocks 4
and 5 where the loop is entered is in the frontier of the other one. -/
theorem crossing_frontiers : ∃ b g frontier g', Command.script crossing FlowGraph.normalEntry (FlowGraph.new "f" 1 0) =
    some (b, g) ∧ g.Walkable ∧ (∀ p, g.Reachable p → ¬ g.Edge p FlowGraph.graphEntry) ∧
    (discover >>= fun _ => computeDominators) g = .ok (frontier, g') ∧
    frontier.toList = [[], [], [3], [7], [], [5], [7], [3], [7]] ∧ ExactFrontiers g g' frontier := by
  have hcompute : ((Command.script crossing FlowGraph.normalEntry (FlowGraph.new "f" 1 0)).map fun r =>
      (r.2.catchEntries, frontiersOf r.2)) = some ([], [[], [], [3], [7], [], [5], [7], [3], [7]]) := by decide +kernel
  obtain ⟨⟨b, g⟩, hscript, hcomputed⟩ := Option.map_eq_some_iff.mp hcompute
  obtain ⟨hcatch, hfrontiers⟩ := Prod.mk.inj hcomputed
  have hstart : Built FlowGraph.normalEntry (FlowGraph.new "f" 1 0) := @Built.start "f" 1 0 none (by decide)
  have hraw : Raw g := (hstart.script hscript).raw.1
  have hentry (p : BlockId) (_ : g.Reachable p) : ¬ g.Edge p FlowGraph.graphEntry := fun hedge =>
    (hraw.handle_of_mem_next hcatch hedge).2 rfl
  obtain ⟨⟨frontier, g'⟩, hrun⟩ := (frontiers_exact g hentry).1 (hraw.walkable hcatch)
  rw [frontiersOf, hrun] at hfrontiers
  exact ⟨b, g, frontier, g', hscript, hraw.walkable hcatch, hentry, hrun, hfrontiers,
    (frontiers_exact g hentry).2 frontier g' hrun⟩

end Flow

end Midend
