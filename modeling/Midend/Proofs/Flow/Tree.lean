import Midend.Proofs.Flow.Order

/-! # The dominator tree in the graph

The tree is computed on preorder numbers and recorded in the blocks.
-/

namespace Midend.Flow

open Relation

namespace Tour

variable {t : Tour} {b d p : BlockId} {m n : Nat}

def number? (t : Tour) (b : BlockId) : Option Nat := (t.blocks[b.index]?).bind Block.preorderNumber

/-- The predecessors of the visited blocks, as preorder numbers. -/
def predNumbers (t : Tour) : Array (List Nat) := (t.preorder.map fun b => (t.preds b).filterMap t.number?).toArray

def tree (t : Tour) : Array (Option Nat) := idoms t.predNumbers t.parents

def idom? (t : Tour) (b : BlockId) : Option BlockId :=
  ((t.number? b).bind fun n => (t.tree[n]?).join).bind fun m => t.preorder[m]?

theorem preds_eq {k : Block} (hk : t.blocks[b.index]? = some k) (hb : b ∈ t.preorder) : t.preds b = k.preds := by
  simp [preds, hb, hk]

@[simp] theorem size_predNumbers : t.predNumbers.size = t.preorder.length := by simp [predNumbers]

end Tour

namespace Touring

variable {g : FlowGraph} {t : Tour} {b c d p : BlockId} {m n : Nat} (ht : Touring g t [])

include ht

theorem number?_eq_some_iff : t.number? b = some n ↔ t.preorder[n]? = some b := by
  unfold Tour.number?
  constructor
  · intro h
    obtain ⟨k, hk, hn⟩ := Option.bind_eq_some_iff.mp h
    exact (ht.number b k n hk).mp hn
  · intro h
    obtain ⟨k, hk⟩ := ht.exists_block (ht.inRange b (List.mem_of_getElem? h))
    rw [hk, Option.bind_some, ht.number b k n hk, h]

theorem getElem?_inj (hm : t.preorder[m]? = some b) (hn : t.preorder[n]? = some b) : m = n := by
  rw [← ht.number?_eq_some_iff] at hm hn
  rw [hm, Option.some_inj] at hn
  exact hn

theorem count_preds (hp : p ∈ t.preorder) : (t.preds b).count p = (g.next p).count b :=
  ht.taken p (ht.opened.symm.subset hp) b

theorem mem_preds_iff : p ∈ t.preds b ↔ p ∈ t.preorder ∧ b ∈ g.next p := by
  constructor
  · intro h
    have hp := ht.known b p h
    exact ⟨hp, by rwa [← List.count_pos_iff, ← ht.count_preds hp, List.count_pos_iff]⟩
  · rintro ⟨hp, hb⟩
    rwa [← List.count_pos_iff, ht.count_preds hp, List.count_pos_iff]

theorem mem_of_edge (hp : p ∈ t.preorder) (hb : b ∈ g.next p) : b ∈ t.preorder := by
  have h : p ∈ t.preds b := ht.mem_preds_iff.mpr ⟨hp, hb⟩
  by_contra hnot
  simp [Tour.preds, hnot] at h

theorem mem_predNumbers_iff : m ∈ t.predNumbers.getD n [] ↔
    ∃ p b, t.preorder[m]? = some p ∧ t.preorder[n]? = some b ∧ p ∈ t.preds b := by
  unfold Tour.predNumbers
  cases hb : t.preorder[n]? with
  | none => simp [hb]
  | some b =>
    simp only [Array.getD_eq_getD_getElem?, List.getElem?_toArray, List.getElem?_map, hb, Option.map_some,
      Option.getD_some, List.mem_filterMap, ht.number?_eq_some_iff]
    constructor
    · rintro ⟨p, hp, hm⟩
      exact ⟨p, b, hm, rfl, hp⟩
    · rintro ⟨p, _, hm, ⟨⟩, hp⟩
      exact ⟨p, hp, hm⟩

theorem rooted : Rooted t.predNumbers t.parents where
  bounded := by
    intro n m hm
    obtain ⟨p, b, hp, -, -⟩ := ht.mem_predNumbers_iff.mp hm
    rw [Tour.size_predNumbers]
    exact (List.getElem?_eq_some_iff.mp hp).1
  parent := by
    intro n hpos hn
    rw [Tour.size_predNumbers] at hn
    exact ht.parent n hpos hn
  parent_lt := fun n m h => (ht.parent_pred n m h).1
  parent_mem := by
    intro n m h
    obtain ⟨-, p, b, hp, hb, hmem⟩ := ht.parent_pred n m h
    exact ht.mem_predNumbers_iff.mpr ⟨p, b, hp, hb, hmem⟩

theorem depthFirst : DepthFirst t.predNumbers t.parents where
  toRooted := ht.rooted
  size := by rw [Tour.size_predNumbers, ht.parents_size]
  forward n m hm hlt := ht.deepening.forward m n (ht.mem_predNumbers_iff.mp hm) hlt
  interval := ht.deepening.interval

theorem mem_preorder_iff_reachable : b ∈ t.preorder ↔ g.Reachable b := by
  constructor
  · intro hb
    obtain ⟨n, hn⟩ := List.mem_iff_getElem?.mp hb
    clear hb
    induction n using Nat.strong_induction_on generalizing b with
    | _ n ih =>
      rcases Nat.eq_zero_or_pos n with rfl | hpos
      · obtain rfl : FlowGraph.graphEntry = b := by simpa [ht.entry] using hn
        exact .refl
      · obtain ⟨m, hm⟩ := ht.parent n hpos (List.getElem?_eq_some_iff.mp hn).1
        obtain ⟨hlt, p, b', hp, hb', hmem⟩ := ht.parent_pred n m hm
        obtain rfl : b' = b := by simpa [hb'] using hn
        exact (ih m hlt hp).tail (ht.mem_preds_iff.mp hmem).2
  · intro hb
    induction hb with
    | refl => exact List.mem_of_getElem? ht.entry
    | tail _ hedge ih => exact ht.mem_of_edge ih hedge

/-! ## Immediate dominators -/

theorem idom?_eq_some_iff (hn : t.preorder[n]? = some b) :
    t.idom? b = some d ↔ ∃ m, Up t.tree n m ∧ t.preorder[m]? = some d := by
  unfold Tour.idom?
  rw [ht.number?_eq_some_iff.mpr hn, Option.bind_some, Option.bind_eq_some_iff]
  rfl

theorem exists_numbers (h : t.idom? b = some d) :
    ∃ n m, t.preorder[n]? = some b ∧ t.preorder[m]? = some d ∧ Up t.tree n m := by
  obtain ⟨m, hm, hd⟩ := Option.bind_eq_some_iff.mp h
  obtain ⟨n, hn, hup⟩ := Option.bind_eq_some_iff.mp hm
  exact ⟨n, m, ht.number?_eq_some_iff.mp hn, hd, hup⟩

theorem mem_of_idom? (h : t.idom? b = some d) : b ∈ t.preorder ∧ d ∈ t.preorder := by
  obtain ⟨n, m, hn, hm, -⟩ := ht.exists_numbers h
  exact ⟨List.mem_of_getElem? hn, List.mem_of_getElem? hm⟩

theorem exists_idom? (hb : b ∈ t.preorder) (hne : b ≠ FlowGraph.graphEntry) : ∃ d, t.idom? b = some d := by
  obtain ⟨n, hn⟩ := List.mem_iff_getElem?.mp hb
  have hlt : n < t.preorder.length := (List.getElem?_eq_some_iff.mp hn).1
  have hpos : 0 < n := by
    rcases Nat.eq_zero_or_pos n with rfl | h
    · rw [ht.entry, Option.some_inj] at hn
      exact absurd hn.symm hne
    · exact h
  obtain ⟨m, hm⟩ := ht.rooted.exists_idom (by rwa [Tour.size_predNumbers]) hpos
  have hmn := (ht.rooted.idom_spec hm).1
  exact ⟨t.preorder[m], (ht.idom?_eq_some_iff hn).mpr ⟨m, hm, List.getElem?_eq_getElem (by omega)⟩⟩

theorem idom?_graphEntry : t.idom? FlowGraph.graphEntry = none := by
  cases h : t.idom? FlowGraph.graphEntry with
  | none => rfl
  | some d =>
    obtain ⟨m, hm, -⟩ := (ht.idom?_eq_some_iff ht.entry).mp h
    exact absurd (ht.rooted.idom_spec hm).1 (Nat.not_lt_zero m)

theorem ne_graphEntry_of_idom? (h : t.idom? b = some d) : b ≠ FlowGraph.graphEntry := by
  rintro rfl
  simp [ht.idom?_graphEntry] at h

theorem preorder_one (hcatch : g.catchEntries = []) : t.preorder[1]? = some FlowGraph.normalEntry := by
  have hnext := Raw.next_graphEntry hcatch
  have hmem : FlowGraph.normalEntry ∈ t.preorder :=
    ht.mem_of_edge (List.mem_of_getElem? ht.entry) (by simp [hnext])
  have hlen : 1 < t.preorder.length := by
    obtain ⟨n, hn⟩ := List.mem_iff_getElem?.mp hmem
    have hlt := (List.getElem?_eq_some_iff.mp hn).1
    rcases Nat.eq_zero_or_pos n with rfl | h
    · rw [ht.entry, Option.some_inj] at hn
      exact absurd hn (by simp [FlowGraph.normalEntry, FlowGraph.graphEntry])
    · omega
  obtain ⟨m, hm⟩ := ht.parent 1 Nat.one_pos hlen
  obtain ⟨hlt, p, b, hp, hb, hpb⟩ := ht.parent_pred 1 m hm
  obtain rfl : m = 0 := by omega
  obtain rfl : FlowGraph.graphEntry = p := by simpa [ht.entry] using hp
  have hbnext := (ht.mem_preds_iff.mp hpb).2
  rw [hnext, List.mem_singleton] at hbnext
  rw [hb, hbnext]

theorem idom?_normalEntry (hcatch : g.catchEntries = []) :
    t.idom? FlowGraph.normalEntry = some FlowGraph.graphEntry := by
  obtain ⟨d, hd⟩ := ht.exists_idom? (List.mem_of_getElem? (ht.preorder_one hcatch))
    (by simp [FlowGraph.normalEntry, FlowGraph.graphEntry])
  obtain ⟨m, hm, hmd⟩ := (ht.idom?_eq_some_iff (ht.preorder_one hcatch)).mp hd
  have hlt := (ht.rooted.idom_spec hm).1
  obtain rfl : m = 0 := by omega
  rw [hd, ← hmd, ht.entry]

theorem idom?_ne_graphEntry (hcatch : g.catchEntries = []) (hb : b ≠ FlowGraph.normalEntry)
    (h : t.idom? b = some d) : d ≠ FlowGraph.graphEntry := by
  rintro rfl
  obtain ⟨n, m, hn, hm, hup⟩ := ht.exists_numbers h
  obtain rfl : m = 0 := ht.getElem?_inj hm ht.entry
  have hone : ∀ n, 0 ∈ t.predNumbers.getD n [] → n = 1 := by
    intro n hmem
    obtain ⟨p, c, hp, hc, hpc⟩ := ht.mem_predNumbers_iff.mp hmem
    obtain rfl : FlowGraph.graphEntry = p := by simpa [ht.entry] using hp
    have hnext := (ht.mem_preds_iff.mp hpc).2
    rw [Raw.next_graphEntry hcatch, List.mem_singleton] at hnext
    exact ht.getElem?_inj hc (hnext ▸ ht.preorder_one hcatch)
  refine ht.rooted.idom_ne_entry hone hup ?_ rfl
  rintro rfl
  rw [ht.preorder_one hcatch, Option.some_inj] at hn
  exact hb hn.symm

theorem not_dominates_idom (h : t.idom? b = some d) :
    ¬ ReflTransGen (fun x y => t.idom? x = some y) d b := by
  have hfall : ∀ {x y : BlockId} {k : Nat}, ReflTransGen (fun x y => t.idom? x = some y) x y →
      t.preorder[k]? = some x → ∃ j ≤ k, t.preorder[j]? = some y := by
    intro x y k hxy hk
    induction hxy with
    | refl => exact ⟨k, Nat.le_refl k, hk⟩
    | tail _ hyz ih =>
      obtain ⟨j, hj, hy⟩ := ih
      obtain ⟨m, hm, hz⟩ := (ht.idom?_eq_some_iff hy).mp hyz
      exact ⟨m, Nat.le_trans (Nat.le_of_lt (ht.rooted.idom_spec hm).1) hj, hz⟩
  intro hdb
  obtain ⟨n, m, hn, hm, hup⟩ := ht.exists_numbers h
  obtain ⟨j, hj, hb⟩ := hfall hdb hm
  obtain rfl : j = n := ht.getElem?_inj hb hn
  exact absurd (ht.rooted.idom_spec hup).1 (Nat.not_lt.mpr hj)

theorem tree_induction (hcatch : g.catchEntries = []) {motive : BlockId → Prop} (hone : motive FlowGraph.normalEntry)
    (hbelow : ∀ b d, t.idom? b = some d → d ≠ FlowGraph.graphEntry → motive d → motive b) (hb : b ∈ t.preorder)
    (hne : b ≠ FlowGraph.graphEntry) : motive b := by
  obtain ⟨n, hn⟩ := List.mem_iff_getElem?.mp hb
  clear hb
  induction n using Nat.strong_induction_on generalizing b with
  | _ n ih =>
    by_cases hnormal : b = FlowGraph.normalEntry
    · rwa [hnormal]
    obtain ⟨d, hd⟩ := ht.exists_idom? (List.mem_of_getElem? hn) hne
    obtain ⟨m, hm, hmd⟩ := (ht.idom?_eq_some_iff hn).mp hd
    have hdne : d ≠ FlowGraph.graphEntry := ht.idom?_ne_graphEntry hcatch hnormal hd
    exact hbelow b d hd hdne (ih m (ht.rooted.idom_spec hm).1 hdne hmd)

theorem above_graphEntry (hb : b ∈ t.preorder) :
    ReflTransGen (fun x y => t.idom? x = some y) b FlowGraph.graphEntry := by
  obtain ⟨n, hn⟩ := List.mem_iff_getElem?.mp hb
  clear hb
  induction n using Nat.strong_induction_on generalizing b with
  | _ n ih =>
    by_cases hne : b = FlowGraph.graphEntry
    · rw [hne]
    · obtain ⟨d, hd⟩ := ht.exists_idom? (List.mem_of_getElem? hn) hne
      obtain ⟨m, hm, hmd⟩ := (ht.idom?_eq_some_iff hn).mp hd
      exact .head hd (ih m (ht.rooted.idom_spec hm).1 hmd)

end Touring

/-! ## Recording the tree -/

/-- The order of blocks in a graph is that of the tour. -/
structure InTourOrder (t : Tour) (g : FlowGraph) : Prop where
  preorder : g.preorder = t.preorder
  postorder : g.postorder = t.postorder
  parents : g.parents = t.parents
  assigned : g.assigned = t.assigned
  size : g.blocks.size = t.blocks.size
  block : ∀ (b : BlockId) (k : Block), g.blocks[b.index]? = some k → ∃ k', t.blocks[b.index]? = some k' ∧
    k.kind = k'.kind ∧ k.preds = k'.preds ∧ k.preorderNumber = k'.preorderNumber

def Tour.children (t : Tour) (b : BlockId) : List BlockId := t.preorder.filter fun c => t.idom? c = some b

/-- The block with its place in the tree, as far as the blocks of `done` go. -/
def Tour.placed (t : Tour) (done : List BlockId) (b : BlockId) (k : Block) : Block :=
  if b ∈ t.preorder then
    { k with
      dominator := if b ∈ done then t.idom? b else none
      dominated := done.filter fun c => t.idom? c = some b }
  else k

theorem filterMapM_eq_ok {α β : Type} {f : α → Except Fault (Option β)} {h : α → Option β} {xs : List α}
    (hf : ∀ x ∈ xs, f x = .ok (h x)) : xs.filterMapM f = .ok (xs.filterMap h) := by
  induction xs with
  | nil => rfl
  | cons x xs ih =>
    rw [List.filterMapM_cons, hf x List.mem_cons_self, ih fun y hy => hf y (List.mem_cons_of_mem x hy),
      List.filterMap_cons]
    cases h x <;> rfl

section Recording

variable {r g : FlowGraph} {t : Tour} (ht : Touring r t []) (hf : InTourOrder t g)

include ht hf

theorem exists_block_of_mem {b : BlockId} (hb : b ∈ t.preorder) : ∃ k, g.blocks[b.index]? = some k := by
  have hlt := ht.inRange b hb
  exact ⟨_, Array.getElem?_eq_getElem (by rw [hf.size, ht.size]; exact hlt)⟩

theorem preds_of_mem {b : BlockId} (hb : b ∈ t.preorder) : g.preds b = .ok (t.preds b) := by
  obtain ⟨k, hk⟩ := exists_block_of_mem ht hf hb
  obtain ⟨k', hk', -, hpreds, -⟩ := hf.block b k hk
  exact FlowGraph.preds_eq_ok.mpr ⟨k, hk, by rw [hpreds, Tour.preds_eq hk' hb]⟩

theorem predNumbers_eq : predNumbers g = .ok t.predNumbers := by
  have hrow : ∀ b ∈ t.preorder, (do
      (← g.preds b).filterMapM fun p => return (← g.block p).preorderNumber : Except Fault (List Nat)) =
        .ok ((t.preds b).filterMap t.number?) := by
    intro b hb
    have hnumber : ∀ p ∈ t.preds b, (do return (← g.block p).preorderNumber : Except Fault (Option Nat)) =
        .ok (t.number? p) := by
      intro p hp
      obtain ⟨k, hk⟩ := exists_block_of_mem ht hf (ht.known b p hp)
      obtain ⟨k', hk', -, -, hn⟩ := hf.block p k hk
      rw [FlowGraph.block_eq_ok.mpr hk, Tour.number?, hk']
      exact congrArg Except.ok hn
    rw [preds_of_mem ht hf hb]
    show List.filterMapM _ (t.preds b) = _
    exact filterMapM_eq_ok hnumber
  unfold predNumbers
  rw [hf.preorder, bind_eq_ok]
  refine ⟨t.preorder.map fun b => (t.preds b).filterMap t.number?, mapM_eq_ok.mpr ?_, rfl⟩
  rw [List.forall₂_map_right_iff]
  exact List.forall₂_same.mpr hrow

theorem leads_forgetTree : Leads False g (t.preorder.forM fun b =>
    Edit.modifyBlock b fun k => { k with dominator := none, dominated := [] })
      fun _ g' => g' = g.mapBlocks (t.placed []) := by
  refine (Leads.forM (fun done g' => g' = g.mapBlocks fun b k =>
    if b ∈ done then { k with dominator := none, dominated := [] } else k) ?_ ?_).mono ?_
  · simp [FlowGraph.mapBlocks_id]
  · rintro done b rest _ hrest rfl
    have hlt : b.index < g.blocks.size := by
      rw [hf.size, ht.size]
      exact ht.inRange b (by simp [hrest])
    simp only [Leads.modifyBlock_iff, FlowGraph.size_mapBlocks, hlt, true_implies, Nat.not_le.mpr hlt,
      false_implies, and_true, FlowGraph.withBlock_eq_mapBlocks, FlowGraph.mapBlocks_mapBlocks]
    refine FlowGraph.mapBlocks_congr fun c k _ => ?_
    by_cases hc : c = b
    · by_cases hd : b ∈ done <;> simp [hc, hd]
    · simp [hc]
  · rintro _ _ rfl
    refine FlowGraph.mapBlocks_congr fun c k _ => ?_
    simp [Tour.placed]

theorem leads_setDominator {done : List BlockId} {b d : BlockId} {m : Nat} (hb : b ∈ t.preorder)
    (hm : t.preorder[m]? = some d) (hd : t.idom? b = some d) :
    Leads False (g.mapBlocks (t.placed done)) (setDominator b m)
      fun _ g' => g' = g.mapBlocks (t.placed (done ++ [b])) := by
  have hdmem : d ∈ t.preorder := List.mem_of_getElem? hm
  have hlt (c : BlockId) (hc : c ∈ t.preorder) : c.index < g.blocks.size := by
    rw [hf.size, ht.size]
    exact ht.inRange c hc
  have hat : blockAt (g.mapBlocks (t.placed done)) m = .ok d := by
    unfold blockAt itemAt
    rw [orFault_eq_ok]
    show g.preorder[m]? = some d
    rw [hf.preorder, hm]
  unfold setDominator
  rw [Leads.bind_iff, Leads.get_iff, Leads.bind_iff, Leads.lift_iff, hat, Yields.ok_iff]
  simp only [Leads.bind_iff, Leads.modifyBlock_iff, FlowGraph.size_mapBlocks, FlowGraph.withBlock_eq_mapBlocks,
    hlt b hb, hlt d hdmem, true_implies, Nat.not_le.mpr (hlt b hb), Nat.not_le.mpr (hlt d hdmem), false_implies,
    and_true, FlowGraph.mapBlocks_mapBlocks]
  refine FlowGraph.mapBlocks_congr fun c k _ => ?_
  unfold Tour.placed
  by_cases hc : c ∈ t.preorder
  · by_cases hcb : c = b
    · by_cases hcd : c = d
      · subst hcb hcd
        simp [hc, hd]
      · subst hcb
        simp [hc, hcd, hd, Ne.symm hcd]
    · by_cases hcd : c = d
      · subst hcd
        simp [hc, hcb, hd]
      · simp [hc, hcb, hcd, hd, Ne.symm hcd]
  · have hcb : c ≠ b := fun h => hc (h ▸ hb)
    have hcd : c ≠ d := fun h => hc (h ▸ hdmem)
    simp [hc, hcb, hcd]

/-- The dominator tree is recorded in the blocks, and the frontiers are those of the tree. -/
theorem leads_computeDominators : Leads False g computeDominators fun frontier g' =>
    frontier = frontiers t.predNumbers t.tree ∧ g' = g.mapBlocks (t.placed t.preorder) := by
  unfold computeDominators
  rw [Leads.bind_iff, Leads.get_iff, Leads.bind_iff, Leads.lift_iff, predNumbers_eq ht hf, Yields.ok_iff]
  simp only [hf.preorder, hf.parents, ht.depthFirst.dominatorTree_eq, Leads.bind_iff, Leads.pure_iff]
  refine (leads_forgetTree ht hf).mono ?_
  rintro _ _ rfl
  refine (Leads.forM (fun done g' => g' = g.mapBlocks (t.placed (done.map Prod.fst))) rfl ?_).mono ?_
  · rintro done ⟨b, n⟩ rest _ hzip rfl
    have hn : t.preorder[n]? = some b :=
      List.mk_mem_zipIdx_iff_getElem?.mp (by simp [hzip])
    have hb : b ∈ t.preorder := List.mem_of_getElem? hn
    rw [List.map_append, List.map_singleton]
    cases hup : ((idoms t.predNumbers t.parents)[n]?).join with
    | none =>
      have hnone : t.idom? b = none := by
        rw [Tour.idom?, ht.number?_eq_some_iff.mpr hn, Option.bind_some, Tour.tree, hup]
        rfl
      generalize done.map Prod.fst = done
      refine FlowGraph.mapBlocks_congr fun c k _ => ?_
      unfold Tour.placed
      by_cases hcb : c = b
      · subst hcb
        simp [hb, hnone]
      · simp [hcb, hnone]
    | some m =>
      obtain ⟨d, hd⟩ : ∃ d, t.preorder[m]? = some d := by
        have hmn := (ht.rooted.idom_spec hup).1
        have hlen := (List.getElem?_eq_some_iff.mp hn).1
        exact ⟨_, List.getElem?_eq_getElem (Nat.lt_trans hmn hlen)⟩
      exact leads_setDominator ht hf hb hd ((ht.idom?_eq_some_iff hn).mpr ⟨m, hup, hd⟩)
  · rintro _ _ rfl
    refine ⟨rfl, ?_⟩
    simp

end Recording

end Midend.Flow
