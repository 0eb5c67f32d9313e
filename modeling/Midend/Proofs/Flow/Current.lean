import Mathlib.Data.Set.Card
import Midend.Proofs.Defined

/-! # Orders that would be found again

What the last discovery of blocks has recorded, with the tree of dominators, may be out of date. Here it is not: looking
at the graph once more finds the same. Then the tree says what dominates what, and the numbers of the blocks can be
relied on.
-/

namespace Midend

open Midend.Flow

namespace FlowGraph

variable {g : FlowGraph} {a b c d : BlockId} {path front back back' : List BlockId}

/-! ## Paths around a block -/

theorem IsPath.splice (h : g.IsPath (front ++ b :: back)) (h' : g.IsPath (b :: back')) :
    g.IsPath (front ++ b :: back') := by
  induction front with
  | nil => exact h'
  | cons c front ih =>
    cases h with
    | cons hedge hpath =>
      refine .cons ?_ (ih hpath)
      cases front with
      | nil => exact hedge
      | cons => exact hedge

theorem IsPath.tail (h : g.IsPath (b :: path)) : g.IsPath path := by
  cases h with
  | cons _ hpath => exact hpath

theorem IsPath.drop (h : g.IsPath (front ++ back)) : g.IsPath back := by
  induction front with
  | nil => exact h
  | cons c front ih => exact ih h.tail

theorem exists_path_avoiding (h : ¬ g.Dominates a b) :
    ∃ path, g.IsPath path ∧ path.headD graphEntry = b ∧ a ∉ path ++ [graphEntry] := by
  unfold Dominates at h
  push Not at h
  exact h

theorem Dominates.antisymm (hab : g.Dominates a b) (hba : g.Dominates b a) (hb : g.Reachable b) : a = b := by
  by_contra hne
  have hnone (n : Nat) : ∀ path, path.length = n → g.IsPath path → path.headD graphEntry ≠ b := by
    induction n using Nat.strong_induction_on with
    | _ n ih =>
      intro path hlen hpath hhead
      obtain ⟨front, back, rfl, hback, hheadA⟩ := hpath.suffix (hab path hpath hhead)
      obtain ⟨front', back', rfl, hback', hheadB⟩ := hback.suffix (hba back hback hheadA)
      cases front with
      | nil => exact hne (hheadA.symm.trans hhead)
      | cons => exact ih back'.length (by simp at hlen; omega) back' rfl hback' hheadB
  obtain ⟨path, hpath, hhead⟩ := exists_path_of_reachable hb
  exact hnone _ path rfl hpath hhead

theorem Dominates.exists_path_around (hab : g.Dominates a b) (hne : a ≠ b) (hb : g.Reachable b) :
    ∃ path, g.IsPath path ∧ path.headD graphEntry = a ∧ b ∉ path ++ [graphEntry] :=
  exists_path_avoiding fun hba => hne (hab.antisymm hba hb)

/-- On a way to a block that `b` dominates, nothing that strictly dominates `b` comes behind the last visit to `b`. -/
theorem IsPath.not_dominates_of_behind (hpath : g.IsPath (front ++ c :: back)) (hmem : b ∉ front ++ [c])
    (hb : g.Dominates b ((front ++ c :: back).headD graphEntry)) (hentry : c ≠ graphEntry) : ¬ g.Dominates c b := by
  intro hcb
  have hhead (back' : List BlockId) : (front ++ c :: back').headD graphEntry = (front ++ c :: back).headD
    graphEntry := by
    cases front <;> rfl
  have hreach : g.Reachable b := hb.reachable hpath.reachable
  obtain ⟨around, haround, hc, havoid⟩ := hcb.exists_path_around (fun h => hmem (by simp [h])) hreach
  cases around with
  | nil => exact hentry hc.symm
  | cons x around =>
    obtain rfl : x = c := hc
    have hon := hb _ (hpath.splice haround) (hhead around)
    simp only [List.mem_append, List.mem_cons, List.cons_append] at hon havoid hmem
    tauto

theorem exists_path_to (hb : g.Reachable b) (hne : b ≠ graphEntry) : ∃ path, g.IsPath (b :: path) ∧ b ∉ path := by
  have hshort (n : Nat) : ∀ path, path.length = n → g.IsPath path → path.headD graphEntry = b →
      ∃ path, g.IsPath (b :: path) ∧ b ∉ path := by
    induction n using Nat.strong_induction_on with
    | _ n ih =>
      intro path hlen hpath hhead
      cases path with
      | nil => exact absurd hhead.symm hne
      | cons c path =>
        obtain rfl : c = b := hhead
        by_cases hmem : c ∈ path
        · obtain ⟨front, back, rfl⟩ := List.append_of_mem hmem
          have hpath : g.IsPath ((c :: front) ++ c :: back) := hpath
          exact ih (c :: back).length (by simp at hlen ⊢; omega) _ rfl hpath.drop rfl
        · exact ⟨path, hpath, hmem⟩
  obtain ⟨path, hpath, hhead⟩ := exists_path_of_reachable hb
  exact hshort _ path rfl hpath hhead

end FlowGraph

/-! ## The tree of dominators -/

namespace ExactDominators

open FlowGraph

variable {g : FlowGraph} {b c d : BlockId} {k : Block}

theorem exists_block (h : ExactDominators g g) (hb : g.Reachable b) : ∃ k, g.blocks[b.index]? = some k := by
  by_cases hne : b = graphEntry
  · obtain ⟨k, hk, -⟩ := h.entry
    exact ⟨k, hne ▸ hk⟩
  · obtain ⟨k, -, hk, -⟩ := h.immediate b hb hne
    exact ⟨k, hk⟩

theorem child (h : ExactDominators g g) (hb : g.Reachable b) (hk : g.blocks[b.index]? = some k) (hc : c ∈ k.dominated) :
    g.Reachable c ∧ c ≠ b ∧ g.Dominates b c ∧ ∀ d, d ≠ c → g.Dominates d c → g.Dominates d b := by
  obtain ⟨hreach, l, hl, hdominator⟩ := ((h.dominated b k hb hk).2 c).mp hc
  have hne : c ≠ graphEntry := by
    rintro rfl
    obtain ⟨l', hl', hnone⟩ := h.entry
    obtain rfl := Option.some_inj.mp (hl.symm.trans hl')
    rw [hnone] at hdominator
    cases hdominator
  obtain ⟨l', d, hl', hd, hdb, hdom, hall⟩ := h.immediate c hreach hne
  obtain rfl := Option.some_inj.mp (hl.symm.trans hl')
  obtain rfl := Option.some_inj.mp (hd.symm.trans hdominator)
  exact ⟨hreach, Ne.symm hdb, hdom, hall⟩

theorem exists_child (h : ExactDominators g g) (hk : g.blocks[b.index]? = some k) (hd : g.Reachable d) (hne : b ≠ d)
    (hdom : g.Dominates b d) : ∃ c ∈ k.dominated, g.Dominates c d := by
  have hshort (n : Nat) : ∀ path d, path.length = n → g.IsPath path → path.headD graphEntry = d → b ≠ d →
      g.Dominates b d → ∃ c ∈ k.dominated, g.Dominates c d := by
    induction n using Nat.strong_induction_on with
    | _ n ih =>
      intro path d hlen hpath hhead hne hdom
      have hd : g.Reachable d := hhead ▸ hpath.reachable
      have hentry : d ≠ graphEntry := by
        rintro rfl
        exact hne (dominates_graphEntry_iff.mp hdom)
      obtain ⟨l, e, hl, he, hed, hedom, hall⟩ := h.immediate d hd hentry
      by_cases hbe : b = e
      · subst hbe
        exact ⟨d, ((h.dominated b k (hdom.reachable hd) hk).2 d).mpr ⟨hd, l, hl, he⟩, .refl d⟩
      · obtain ⟨front, back, rfl, hback, hheadE⟩ := hpath.suffix (hedom path hpath hhead)
        have hlt : back.length < n := by
          cases front with
          | nil => exact absurd (hheadE.symm.trans hhead) hed
          | cons => simp at hlen; omega
        obtain ⟨c, hc, hce⟩ := ih back.length hlt back e rfl hback hheadE hbe (hall b hne hdom)
        exact ⟨c, hc, hce.trans hedom⟩
  obtain ⟨path, hpath, hhead⟩ := exists_path_of_reachable hd
  exact hshort _ path d rfl hpath hhead hne hdom

theorem not_dominates_sibling (h : ExactDominators g g) (hb : g.Reachable b) (hk : g.blocks[b.index]? = some k)
    (hc : c ∈ k.dominated) (hd : d ∈ k.dominated) (hne : c ≠ d) : ¬ g.Dominates c d := by
  intro hcd
  obtain ⟨-, hcb, hbc, -⟩ := h.child hb hk hc
  exact hcb (((h.child hb hk hd).2.2.2 c hne hcd).antisymm hbc hb)

end ExactDominators

namespace FlowGraph

variable {g : FlowGraph} {b c : BlockId} {bs cs : List BlockId} {k : Block}

/-! ## Going down the tree -/

/-- The blocks can be reached, and none of them dominates another. -/
structure Fringe (g : FlowGraph) (bs : List BlockId) : Prop where
  reachable : ∀ b ∈ bs, g.Reachable b
  apart : bs.Pairwise fun b c => ¬ g.Dominates b c ∧ ¬ g.Dominates c b

theorem fringe_entry : g.Fringe [graphEntry] where
  reachable _ hb := List.mem_singleton.mp hb ▸ .refl
  apart := List.pairwise_singleton _ _

/-- What is still ahead: the blocks of the fringe and all that they dominate. -/
def ahead (g : FlowGraph) (bs : List BlockId) : Set BlockId := {c | g.Reachable c ∧ ∃ b ∈ bs, g.Dominates b c}

theorem ahead_subset (hexact : ExactDominators g g) : g.ahead bs ⊆ BlockId.mk '' Set.Iio g.blocks.size := by
  rintro c ⟨hc, -⟩
  obtain ⟨k, hk⟩ := hexact.exists_block hc
  exact ⟨c.index, (Array.getElem?_eq_some_iff.mp hk).1, rfl⟩

theorem ncard_ahead_le (hexact : ExactDominators g g) : (g.ahead bs).ncard ≤ g.blocks.size := by
  calc (g.ahead bs).ncard ≤ (BlockId.mk '' Set.Iio g.blocks.size).ncard :=
        Set.ncard_le_ncard (ahead_subset hexact) ((Set.finite_Iio _).image _)
    _ ≤ (Set.Iio g.blocks.size).ncard := Set.ncard_image_le (Set.finite_Iio _)
    _ = g.blocks.size := by simp [Set.ncard_eq_toFinset_card']

namespace Fringe

variable (hexact : ExactDominators g g) (h : Fringe g (b :: bs)) (hk : g.blocks[b.index]? = some k)
  (hcs : cs.Perm k.dominated)

include hexact h hk hcs

/-- The children of a block take its place. -/
theorem push : Fringe g (cs ++ bs) := by
  have hb : g.Reachable b := h.reachable b List.mem_cons_self
  obtain ⟨hfirst, hrest⟩ := List.pairwise_cons.mp h.apart
  refine ⟨fun c hc => ?_, List.pairwise_append.mpr ⟨?_, hrest, fun c hc d hd => ?_⟩⟩
  · obtain hc | hc := List.mem_append.mp hc
    · exact (hexact.child hb hk (hcs.mem_iff.mp hc)).1
    · exact h.reachable c (List.mem_cons_of_mem _ hc)
  · refine (hcs.nodup_iff.mpr (hexact.dominated b k hb hk).1).imp_of_mem fun hc hd hne => ?_
    rw [hcs.mem_iff] at hc hd
    exact ⟨hexact.not_dominates_sibling hb hk hc hd hne, hexact.not_dominates_sibling hb hk hd hc (Ne.symm hne)⟩
  · obtain ⟨-, -, hbc, hall⟩ := hexact.child hb hk (hcs.mem_iff.mp hc)
    refine ⟨fun hcd => (hfirst d hd).1 (hbc.trans hcd), fun hdc => ?_⟩
    by_cases heq : d = c
    · exact (hfirst d hd).1 (heq ▸ hbc)
    · exact (hfirst d hd).2 (hall d heq hdc)

theorem not_dominates (hc : c ∈ cs ++ bs) : ¬ g.Dominates c b := by
  have hb : g.Reachable b := h.reachable b List.mem_cons_self
  intro hcb
  obtain hc | hc := List.mem_append.mp hc
  · obtain ⟨-, hne, hbc, -⟩ := hexact.child hb hk (hcs.mem_iff.mp hc)
    exact hne (hcb.antisymm hbc hb)
  · exact ((List.pairwise_cons.mp h.apart).1 c hc).2 hcb

theorem ncard_push_lt : (g.ahead (cs ++ bs)).ncard < (g.ahead (b :: bs)).ncard := by
  have hb : g.Reachable b := h.reachable b List.mem_cons_self
  have hfinite : (g.ahead (b :: bs)).Finite := ((Set.finite_Iio _).image _).subset (ahead_subset hexact)
  refine Set.ncard_lt_ncard ⟨fun x hx => ?_, fun hsub => ?_⟩ hfinite
  · obtain ⟨hx, c, hc, hcx⟩ := hx
    refine ⟨hx, ?_⟩
    obtain hc | hc := List.mem_append.mp hc
    · exact ⟨b, List.mem_cons_self, (hexact.child hb hk (hcs.mem_iff.mp hc)).2.2.1.trans hcx⟩
    · exact ⟨c, List.mem_cons_of_mem _ hc, hcx⟩
  · obtain ⟨-, c, hc, hcb⟩ := hsub ⟨hb, b, List.mem_cons_self, .refl b⟩
    exact h.not_dominates hexact hk hcs hc hcb

end Fringe

/-! ## Discovery that changes nothing -/

structure Record where
  preds : List BlockId
  number : Option Nat
  dominator : Option BlockId
  dominated : List BlockId
deriving DecidableEq

def recordOf (k : Block) : Record := ⟨k.preds, k.preorderNumber, k.dominator, k.dominated⟩

/-- What a discovery and the computation of dominators have recorded. -/
def traversal (g : FlowGraph) : List BlockId × List BlockId × List Record :=
  (g.preorder, g.postorder, g.blocks.toList.map recordOf)

/-- Discovering the blocks and computing their dominators again changes nothing. -/
def Current (g : FlowGraph) : Prop :=
  ∃ frontier g', (discover >>= fun _ => computeDominators) g = .ok (frontier, g') ∧ g'.traversal = g.traversal

instance : Decidable g.Current :=
  decidable_of_iff
    (((discover >>= fun _ => computeDominators) g).toOption.map (fun r => r.2.traversal) = some g.traversal) <| by
    rw [Option.map_eq_some_iff]
    constructor
    · rintro ⟨⟨frontier, g'⟩, hrun, hsame⟩
      exact ⟨frontier, g', toOption_eq_some_iff.mp hrun, hsame⟩
    · rintro ⟨frontier, g', hrun, hsame⟩
      exact ⟨(frontier, g'), toOption_eq_some_iff.mpr hrun, hsame⟩

theorem records_of_traversal {g' : FlowGraph} (h : g'.traversal = g.traversal) {k : Block}
    (hk : g.blocks[b.index]? = some k) : ∃ k', g'.blocks[b.index]? = some k' ∧ k'.preds = k.preds ∧
      k'.preorderNumber = k.preorderNumber ∧ k'.dominator = k.dominator ∧ k'.dominated = k.dominated := by
  have hblocks := congrArg (fun l => l[b.index]?) (Prod.mk.inj (Prod.mk.inj h).2).2
  simp only [List.getElem?_map, Array.getElem?_toList, hk, Option.map_some] at hblocks
  obtain ⟨k', hk', heq⟩ := Option.map_eq_some_iff.mp hblocks
  simp only [recordOf, Record.mk.injEq] at heq
  exact ⟨k', hk', heq.1, heq.2.1, heq.2.2.1, heq.2.2.2⟩

namespace Current

theorem exactDominators (h : g.Current) : ExactDominators g g := by
  obtain ⟨frontier, g', hrun, hsame⟩ := h
  have hexact := exactDominators_of_run hrun
  have hto {b : BlockId} {k : Block} := @records_of_traversal g b g' hsame k
  have hfrom {b : BlockId} {k : Block} := @records_of_traversal g' b g hsame.symm k
  constructor
  case entry =>
    obtain ⟨k, hk, hnone⟩ := hexact.entry
    obtain ⟨k', hk', -, -, hdominator, -⟩ := hfrom hk
    exact ⟨k', hk', hdominator.trans hnone⟩
  case immediate =>
    intro b hb hne
    obtain ⟨k, d, hk, hd, hrest⟩ := hexact.immediate b hb hne
    obtain ⟨k', hk', -, -, hdominator, -⟩ := hfrom hk
    exact ⟨k', d, hk', hdominator.trans hd, hrest⟩
  case dominated =>
    intro a k ha hk
    obtain ⟨k', hk', -, -, -, hdominated⟩ := hto hk
    obtain ⟨hnodup, hmem⟩ := hexact.dominated a k' ha hk'
    rw [← hdominated]
    refine ⟨hnodup, fun b => (hmem b).trans (and_congr_right fun _ => ?_)⟩
    constructor
    · rintro ⟨l, hl, hdom⟩
      obtain ⟨l', hl', -, -, hdominator, -⟩ := hfrom hl
      exact ⟨l', hl', hdominator.trans hdom⟩
    · rintro ⟨l, hl, hdom⟩
      obtain ⟨l', hl', -, -, hdominator, -⟩ := hto hl
      exact ⟨l', hl', hdominator.trans hdom⟩
  case kept => exact fun a k _ hk => ⟨k, hk, rfl⟩
  case dominates =>
    intro a b hb
    obtain ⟨r, hr, hiff⟩ := hexact.dominates a b hb
    refine ⟨r, ?_, hiff⟩
    have hsize : g'.blocks.size = g.blocks.size := by
      simpa [traversal] using congrArg (fun l => l.2.2.length) hsame
    rw [← hr, FlowGraph.dominates, FlowGraph.dominates, hsize]
    refine (dominatesUpTo_congr (fun c => ?_) _).symm
    cases hk : g.blocks[c.index]? with
    | none =>
      have hnone : g'.blocks[c.index]? = none := by
        rw [Array.getElem?_eq_none_iff] at hk ⊢
        omega
      rw [hnone]
    | some k =>
      obtain ⟨k', hk', -, -, hdominator, -⟩ := hto hk
      rw [hk', Option.map_some, Option.map_some, hdominator]

theorem exists_tour (h : g.Current) : ∃ t, Touring g t [] ∧ g.preorder = t.preorder ∧
    ∀ (b : BlockId) (k : Block), g.blocks[b.index]? = some k → ∃ k', t.blocks[b.index]? = some k' ∧ k.preds = k'.preds ∧
      k.preorderNumber = k'.preorderNumber := by
  obtain ⟨frontier, g', hrun, hsame⟩ := h
  obtain ⟨t, ht, -, rfl⟩ := (leads_dominators (.inl trivial)).post_of_ok hrun
  refine ⟨t, ht, (Prod.mk.inj hsame).1.symm, fun b k hk => ?_⟩
  obtain ⟨k', hk', hpreds, hnumber, -, -⟩ := records_of_traversal hsame hk
  rw [blocks_mapBlocks] at hk'
  obtain ⟨k'', hk'', rfl⟩ := Option.map_eq_some_iff.mp hk'
  refine ⟨k'', hk'', ?_, ?_⟩
  · rw [← hpreds]
    unfold Tour.placed
    split <;> rfl
  · rw [← hnumber]
    unfold Tour.placed
    split <;> rfl

theorem mem_preorder_iff (h : g.Current) : b ∈ g.preorder ↔ g.Reachable b := by
  obtain ⟨t, ht, hpreorder, -⟩ := h.exists_tour
  rw [hpreorder, ht.mem_preorder_iff_reachable]

/-- A block has the number of its place in the order. -/
theorem number_iff (h : g.Current) {k : Block} {n : Nat} (hk : g.blocks[b.index]? = some k) :
    k.preorderNumber = some n ↔ g.preorder[n]? = some b := by
  obtain ⟨t, ht, hpreorder, hrecords⟩ := h.exists_tour
  obtain ⟨k', hk', -, hnumber⟩ := hrecords b k hk
  rw [hpreorder, hnumber, ht.number b k' n hk']

end Current

end FlowGraph

end Midend
