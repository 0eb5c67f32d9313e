import Midend.Constants
import Midend.Proofs.Flow.Tree
import Midend.Ssa

/-! # Dominators are exact

A block dominates another one if every path from the graph entry to it goes through the block. What discovery and the
computation of dominators leave in a graph says exactly that, whatever the shape of the graph.
-/

namespace Midend

open Midend.Flow Relation

namespace FlowGraph

variable {g : FlowGraph} {a b c d : BlockId} {path : List BlockId}

/-! ## Paths -/

/-- A path from the graph entry, as the blocks that come after it. The latest comes first. -/
inductive IsPath (g : FlowGraph) : List BlockId → Prop
  | nil : IsPath g []
  | cons {path : List BlockId} {b : BlockId} (hedge : g.Edge (path.headD graphEntry) b) (hpath : IsPath g path) :
      IsPath g (b :: path)

def OnEveryPath (g : FlowGraph) (a b : BlockId) : Prop := ∀ path, g.IsPath (b :: path) → a ∈ path

theorem IsPath.reachable (h : g.IsPath path) : g.Reachable (path.headD graphEntry) := by
  induction h with
  | nil => exact .refl
  | cons hedge _ ih => exact ih.tail hedge

theorem IsPath.reachable_of_mem (h : g.IsPath path) (hb : b ∈ path) : g.Reachable b := by
  induction h with
  | nil => cases hb
  | cons hedge hpath ih =>
    obtain rfl | hb := List.mem_cons.mp hb
    · exact (IsPath.cons hedge hpath).reachable
    · exact ih hb

theorem exists_path_of_reachable (h : g.Reachable b) : ∃ path, g.IsPath path ∧ path.headD graphEntry = b := by
  induction h with
  | refl => exact ⟨[], .nil, rfl⟩
  | tail _ hedge ih =>
    obtain ⟨path, hpath, rfl⟩ := ih
    exact ⟨_ :: path, .cons hedge hpath, rfl⟩

theorem IsPath.suffix (h : g.IsPath path) (hb : b ∈ path ++ [graphEntry]) :
    ∃ front back, path = front ++ back ∧ g.IsPath back ∧ back.headD graphEntry = b := by
  induction h with
  | nil => exact ⟨[], [], rfl, .nil, by simpa [eq_comm] using hb⟩
  | @cons path c hedge hpath ih =>
    obtain rfl | hb := List.mem_cons.mp hb
    · exact ⟨[], _, rfl, .cons hedge hpath, rfl⟩
    · obtain ⟨front, back, rfl, hback, hhead⟩ := ih hb
      exact ⟨c :: front, back, rfl, hback, hhead⟩

theorem isPath_congr {g' : FlowGraph} (h : ∀ b, g.Reachable b → g'.next b = g.next b) : g'.IsPath path ↔
    g.IsPath path := by
  induction path with
  | nil => exact ⟨fun _ => .nil, fun _ => .nil⟩
  | cons b path ih =>
    have hedge (hpath : g.IsPath path) : g'.Edge (path.headD graphEntry) b ↔ g.Edge (path.headD graphEntry) b := by
      unfold FlowGraph.Edge
      rw [h _ hpath.reachable]
    constructor
    · rintro (_ | ⟨hb, hpath⟩)
      have hpath := ih.mp hpath
      exact .cons ((hedge hpath).mp hb) hpath
    · rintro (_ | ⟨hb, hpath⟩)
      exact .cons ((hedge hpath).mpr hb) (ih.mpr hpath)

/-! ## Dominance -/

/-- Every path from the graph entry to `b` goes through `a`, which may be one of its ends. -/
def Dominates (g : FlowGraph) (a b : BlockId) : Prop :=
  ∀ path, g.IsPath path → path.headD graphEntry = b → a ∈ path ++ [graphEntry]

theorem Dominates.refl (b : BlockId) : g.Dominates b b := by
  rintro path - rfl
  cases path <;> simp

theorem Dominates.trans (hab : g.Dominates a b) (hbc : g.Dominates b c) : g.Dominates a c := by
  intro path hpath hhead
  obtain ⟨front, back, rfl, hback, hb⟩ := hpath.suffix (hbc path hpath hhead)
  rw [List.append_assoc]
  exact List.mem_append_right front (hab back hback hb)

theorem Dominates.reachable (hab : g.Dominates a b) (hb : g.Reachable b) : g.Reachable a := by
  obtain ⟨path, hpath, hhead⟩ := exists_path_of_reachable hb
  obtain ⟨-, back, -, hback, rfl⟩ := hpath.suffix (hab path hpath hhead)
  exact hback.reachable

theorem dominates_graphEntry_iff : g.Dominates a graphEntry ↔ a = graphEntry := by
  constructor
  · intro h
    simpa using h [] .nil rfl
  · rintro rfl
    exact .refl _

end FlowGraph

/-! ## The computed tree -/

namespace Flow

variable {g : FlowGraph} {t : Tour} {a b c d : BlockId} {m n : Nat} (ht : Touring g t [])

include ht

theorem exists_isPath (h : Escapes t.predNumbers m n) (hn : t.preorder[n]? = some b) (hm : t.preorder[m]? = some a) :
    ∃ path, g.IsPath path ∧ path.headD FlowGraph.graphEntry = b ∧ a ∉ path.tail := by
  induction h using Relation.ReflTransGen.head_induction_on generalizing b with
  | refl =>
    obtain rfl : FlowGraph.graphEntry = b := by simpa [ht.entry] using hn
    exact ⟨[], .nil, rfl, by simp⟩
  | @head n k hk _ ih =>
    obtain ⟨hpred, hne⟩ := mem_predsAvoiding.mp hk
    obtain ⟨p, b', hp, hb', hmem⟩ := ht.mem_predNumbers_iff.mp hpred
    obtain rfl : b' = b := by simpa [hn] using hb'.symm
    obtain ⟨path, hpath, hhead, havoid⟩ := ih hp
    have hap : a ≠ p := by
      rintro rfl
      exact hne (ht.getElem?_inj hp hm)
    refine ⟨b' :: path, .cons ?_ hpath, rfl, ?_⟩
    · rw [hhead]
      exact (ht.mem_preds_iff.mp hmem).2
    · cases path with
      | nil => simp
      | cons q path =>
        obtain rfl : q = p := hhead
        simpa [hap] using havoid

theorem escapes_of_isPath {path : List BlockId} (hpath : g.IsPath path) (ha : a ∉ path ++ [FlowGraph.graphEntry])
    (hm : t.preorder[m]? = some a) (hn : t.preorder[n]? = some (path.headD FlowGraph.graphEntry)) :
    Escapes t.predNumbers m n := by
  induction hpath generalizing n with
  | nil =>
    obtain rfl : n = 0 := ht.getElem?_inj hn ht.entry
    exact .refl
  | @cons path c hedge hpath ih =>
    have hp : path.headD FlowGraph.graphEntry ∈ t.preorder := ht.mem_preorder_iff_reachable.mpr hpath.reachable
    obtain ⟨k, hk⟩ := List.mem_iff_getElem?.mp hp
    have hpred : k ∈ t.predNumbers.getD n [] :=
      ht.mem_predNumbers_iff.mpr ⟨_, c, hk, hn, ht.mem_preds_iff.mpr ⟨hp, hedge⟩⟩
    have havoid : a ∉ path ++ [FlowGraph.graphEntry] := fun h => ha (List.mem_cons_of_mem c h)
    refine (ih havoid hk).of_pred hpred ?_
    rintro rfl
    obtain rfl : path.headD FlowGraph.graphEntry = a := by simpa [hk] using hm
    exact havoid (by cases path <;> simp)

theorem dominates_of_not_escapes (h : ¬ Escapes t.predNumbers m n) (hm : t.preorder[m]? = some a)
    (hn : t.preorder[n]? = some b) : g.Dominates a b := by
  intro path hpath hhead
  by_contra havoid
  exact h (escapes_of_isPath ht hpath havoid hm (hhead ▸ hn))

theorem dominates_iff_above (hm : t.preorder[m]? = some a) (hn : t.preorder[n]? = some b) :
    g.Dominates a b ↔ Above t.tree n m := by
  constructor
  · intro h
    by_cases hab : a = b
    · subst hab
      rw [ht.getElem?_inj hm hn]
    have hlt : n < t.predNumbers.size := by
      rw [Tour.size_predNumbers]
      exact (List.getElem?_eq_some_iff.mp hn).1
    refine ht.rooted.above_idoms_of_not_escapes hlt fun hescapes => ?_
    obtain ⟨path, hpath, hhead, havoid⟩ := exists_isPath ht hescapes hn hm
    have hentry : a = FlowGraph.graphEntry := by
      have hmem := h path hpath hhead
      cases path with
      | nil => simpa using hmem
      | cons c path =>
        obtain rfl : c = b := hhead
        simpa [hab, show a ∉ path from havoid] using hmem
    subst hentry
    obtain rfl : m = 0 := ht.getElem?_inj hm ht.entry
    refine not_escapes_entry (fun hn0 => hab ?_) hescapes
    subst hn0
    simpa [ht.entry] using hn
  · intro h
    induction h using Relation.ReflTransGen.head_induction_on generalizing b with
    | refl =>
      obtain rfl : a = b := by simpa [hm] using hn
      exact .refl a
    | @head n k hup _ ih =>
      obtain ⟨hkn, -, hdom, -⟩ := ht.rooted.idom_spec hup
      obtain ⟨d, hk⟩ : ∃ d, t.preorder[k]? = some d :=
        ⟨_, List.getElem?_eq_getElem (Nat.lt_trans hkn (List.getElem?_eq_some_iff.mp hn).1)⟩
      exact (ih hk).trans (dominates_of_not_escapes ht hdom hk hn)

theorem idom?_spec (hd : t.idom? b = some d) :
    d ≠ b ∧ g.Dominates d b ∧ ∀ c, c ≠ b → g.Dominates c b → g.Dominates c d := by
  obtain ⟨n, m, hn, hm, hup⟩ := ht.exists_numbers hd
  have hlt := (ht.rooted.idom_spec hup).1
  refine ⟨?_, (dominates_iff_above ht hm hn).mpr (.single hup), fun c hne hc => ?_⟩
  · rintro rfl
    have hmn := ht.getElem?_inj hm hn
    omega
  · have hb : g.Reachable b := ht.mem_preorder_iff_reachable.mp (List.mem_of_getElem? hn)
    obtain ⟨k, hk⟩ := List.mem_iff_getElem?.mp (ht.mem_preorder_iff_reachable.mpr (hc.reachable hb))
    obtain rfl | ⟨m', hup', habove⟩ := ((dominates_iff_above ht hk hn).mp hc).cases_head
    · exact absurd (by simpa [hk] using hn) hne
    · obtain rfl := Up.unique hup hup'
      exact (dominates_iff_above ht hk hm).mpr habove

/-! ## What is recorded -/

def Recorded (t : Tour) (g' : FlowGraph) : Prop :=
  t.preorder.length ≤ g'.blocks.size ∧ ∀ b ∈ t.preorder, ∃ k, g'.blocks[b.index]? = some k ∧
    k.dominator = t.idom? b ∧ k.dominated = t.children b

theorem dominatesUpTo_eq {g' : FlowGraph} (hrecorded : Recorded t g') {fuel : Nat} (hn : t.preorder[n]? = some b)
    (hle : n ≤ fuel) :
    ∃ r, g'.dominatesUpTo a fuel b = .ok r ∧ (r = true ↔ g.Dominates a b) := by
  induction fuel generalizing b n with
  | zero =>
    obtain rfl : n = 0 := by omega
    obtain rfl : FlowGraph.graphEntry = b := by simpa [ht.entry] using hn
    exact ⟨_, rfl, by rw [FlowGraph.dominates_graphEntry_iff, beq_iff_eq, eq_comm]⟩
  | succ fuel ih =>
    unfold FlowGraph.dominatesUpTo
    by_cases hba : b = a
    · exact ⟨true, by simp [hba, pure, Except.pure], by simp [hba, FlowGraph.Dominates.refl]⟩
    obtain ⟨k, hk, hdominator, -⟩ := hrecorded.2 b (List.mem_of_getElem? hn)
    rw [if_neg hba, FlowGraph.block_eq_ok.mpr hk]
    simp only [bind, Except.bind, hdominator]
    cases hd : t.idom? b with
    | none =>
      have hentry : b = FlowGraph.graphEntry := by
        by_contra hne
        obtain ⟨d, hd'⟩ := ht.exists_idom? (List.mem_of_getElem? hn) hne
        simp [hd] at hd'
      subst hentry
      exact ⟨false, rfl, by simp [FlowGraph.dominates_graphEntry_iff, Ne.symm hba]⟩
    | some d =>
      obtain ⟨n', m', hn', hm', hup⟩ := ht.exists_numbers hd
      obtain rfl := ht.getElem?_inj hn hn'
      have hlt := (ht.rooted.idom_spec hup).1
      obtain ⟨r, hr, hiff⟩ := ih hm' (by omega)
      obtain ⟨-, hdb, hall⟩ := idom?_spec ht hd
      exact ⟨r, hr, hiff.trans ⟨fun h => h.trans hdb, hall a (Ne.symm hba)⟩⟩

omit ht in
theorem leads_dominators {fault : Prop} (hg : fault ∨ g.Walkable) :
    Leads fault g (discover >>= fun _ => computeDominators) fun frontier g' =>
      ∃ t, Touring g t [] ∧ frontier = frontiers t.predNumbers t.tree ∧
        g' = (onTour g t).mapBlocks (t.placed t.preorder) := by
  rw [Leads.bind_iff]
  refine (leads_discover hg).mono ?_
  rintro _ _ ⟨t, rfl, ht⟩
  have hfollows : InTourOrder t (onTour g t) := ⟨rfl, rfl, rfl, rfl, rfl, fun b k hk => ⟨k, hk, rfl, rfl, rfl⟩⟩
  obtain ⟨⟨frontier, g'⟩, hrun, rfl, rfl⟩ := Yields.exists_ok (leads_computeDominators ht hfollows)
  unfold Leads
  rw [hrun]
  exact ⟨t, ht, rfl, rfl⟩

theorem recorded_placed : Recorded t ((onTour g t).mapBlocks (t.placed t.preorder)) := by
  refine ⟨?_, fun b hb => ?_⟩
  · rw [FlowGraph.size_mapBlocks]
    exact ht.length_le.trans ht.size.ge
  · obtain ⟨k, hk⟩ := ht.exists_block (ht.inRange b hb)
    refine ⟨t.placed t.preorder b k, ?_, ?_, ?_⟩
    · rw [FlowGraph.blocks_mapBlocks]
      show (t.blocks[b.index]?).map _ = _
      rw [hk, Option.map_some]
    all_goals simp [Tour.placed, hb, Tour.children]

end Flow

/-- What `g'` has recorded of dominators is exact for the paths of `g`. A block that no path leads to keeps the list of
blocks below it that it had. -/
structure ExactDominators (g g' : FlowGraph) : Prop where
  entry : ∃ k, g'.blocks[FlowGraph.graphEntry.index]? = some k ∧ k.dominator = none
  immediate : ∀ b, g.Reachable b → b ≠ FlowGraph.graphEntry → ∃ k d, g'.blocks[b.index]? = some k ∧
    k.dominator = some d ∧ d ≠ b ∧ g.Dominates d b ∧ ∀ c, c ≠ b → g.Dominates c b → g.Dominates c d
  dominated : ∀ (a : BlockId) (k : Block), g.Reachable a → g'.blocks[a.index]? = some k → k.dominated.Nodup ∧
    ∀ b, b ∈ k.dominated ↔ g.Reachable b ∧ ∃ k', g'.blocks[b.index]? = some k' ∧ k'.dominator = some a
  kept : ∀ (a : BlockId) (k : Block), ¬ g.Reachable a → g'.blocks[a.index]? = some k →
    ∃ k₀, g.blocks[a.index]? = some k₀ ∧ k.dominated = k₀.dominated
  dominates : ∀ a b, g.Reachable b → ∃ r, g'.dominates a b = .ok r ∧ (r = true ↔ g.Dominates a b)

namespace Flow

variable {g : FlowGraph} {t : Tour}

theorem exactDominators_placed (ht : Touring g t []) :
    ExactDominators g ((onTour g t).mapBlocks (t.placed t.preorder)) := by
  have hrecorded := recorded_placed ht
  have hreachable (b : BlockId) : g.Reachable b ↔ b ∈ t.preorder := ht.mem_preorder_iff_reachable.symm
  constructor
  case entry =>
    obtain ⟨k, hk, hdominator, -⟩ := hrecorded.2 _ (List.mem_of_getElem? ht.entry)
    exact ⟨k, hk, by rw [hdominator, ht.idom?_graphEntry]⟩
  case immediate =>
    intro b hb hne
    obtain ⟨k, hk, hdominator, -⟩ := hrecorded.2 b ((hreachable b).mp hb)
    obtain ⟨d, hd⟩ := ht.exists_idom? ((hreachable b).mp hb) hne
    exact ⟨k, d, hk, by rw [hdominator, hd], idom?_spec ht hd⟩
  case dominated =>
    intro a k ha hk
    obtain ⟨k', hk', -, hdominated⟩ := hrecorded.2 a ((hreachable a).mp ha)
    obtain rfl := Option.some_inj.mp (hk.symm.trans hk')
    rw [hdominated]
    refine ⟨ht.nodup.filter _, fun b => ?_⟩
    rw [Tour.children, List.mem_filter, hreachable, decide_eq_true_iff]
    refine and_congr_right fun hb => ?_
    obtain ⟨k', hk', hdominator, -⟩ := hrecorded.2 b hb
    rw [hk']
    simp [hdominator]
  case kept =>
    intro a k ha hk
    rw [FlowGraph.blocks_mapBlocks] at hk
    obtain ⟨k', hk', rfl⟩ := Option.map_eq_some_iff.mp hk
    obtain ⟨k₀, hk₀, -, -, -, hdominated⟩ := ht.kept a k' hk'
    refine ⟨k₀, hk₀, ?_⟩
    rw [← hdominated, Tour.placed, if_neg (mt (hreachable a).mpr ha)]
  case dominates =>
    intro a b hb
    obtain ⟨n, hn⟩ := List.mem_iff_getElem?.mp ((hreachable b).mp hb)
    have hlt : n < t.preorder.length := (List.getElem?_eq_some_iff.mp hn).1
    have hsize := hrecorded.1
    exact dominatesUpTo_eq ht hrecorded hn (by omega)

theorem exactDominators_of_run {g g' : FlowGraph} {frontier : Array (List Nat)}
    (hrun : (discover >>= fun _ => computeDominators) g = .ok (frontier, g')) : ExactDominators g g' := by
  obtain ⟨t, ht, -, rfl⟩ := (leads_dominators (.inl trivial)).post_of_ok hrun
  exact exactDominators_placed ht

/-- Discovery and the computation of dominators end with exact dominators, and they do end where nothing that they
look up is missing. -/
theorem dominators_exact (g : FlowGraph) :
    (g.Walkable → ∃ r, (discover >>= fun _ => computeDominators) g = .ok r) ∧
      ∀ frontier g', (discover >>= fun _ => computeDominators) g = .ok (frontier, g') → ExactDominators g g' := by
  constructor
  · intro hg
    obtain ⟨r, hr, -⟩ := Yields.exists_ok (leads_dominators (.inr hg))
    exact ⟨r, hr⟩
  · exact fun frontier g' hrun => exactDominators_of_run hrun

/-- A branch that goes one way only, and one on the other way. -/
def severed : List Command :=
  [.targetBlock, .targetBlock, .targetBlock, .targetBlock,
    .inst (.constant (.bool true)), .branchIf ⟨0⟩ ⟨2⟩ ⟨3⟩,
    .appendTo ⟨2⟩, .inst (.loadLocal 0), .inst (.unary .ret ⟨3⟩),
    .appendTo ⟨3⟩, .inst (.loadLocal 0), .branchIf ⟨5⟩ ⟨4⟩ ⟨5⟩,
    .appendTo ⟨4⟩, .inst (.loadLocal 0), .inst (.unary .ret ⟨8⟩),
    .appendTo ⟨5⟩, .inst (.loadLocal 0), .inst (.unary .ret ⟨10⟩)]

/-- The graph in SSA form once constants have been propagated, and again with its dominators computed anew. -/
def severedGraphs : Except Fault (FlowGraph × FlowGraph) := do
  let (_, raw) ← Build.run (severed.forM Command.run) (FlowGraph.new "f" 1 0)
  let (_, g₀) ← Ssa.construct.run raw
  let (_, g) ← propagateConstants.run g₀
  let (_, g') ← (discover >>= fun _ => computeDominators) g
  return (g, g')

/-- Below the block that the branch does not go to any more, two blocks are listed that cannot be reached. -/
theorem severed_keeps_list : ∃ g frontier g' k, severedGraphs = .ok (g, g') ∧
    (discover >>= fun _ => computeDominators) g = .ok (frontier, g') ∧ g'.blocks[3]? = some k ∧
    k.dominated = [⟨5⟩, ⟨4⟩] ∧ ∀ b ∈ k.dominated, ¬ g.Reachable b := by
  have hcompute : (severedGraphs.toOption.map fun r => (r.2.preorder, (r.2.blocks[3]?).map Block.dominated)) =
      some ([⟨0⟩, ⟨1⟩, ⟨2⟩], some [⟨5⟩, ⟨4⟩]) := by decide +kernel
  obtain ⟨⟨g, g'⟩, hsevered, hseen⟩ := Option.map_eq_some_iff.mp hcompute
  obtain ⟨hpreorder, hblock⟩ := Prod.mk.inj hseen
  obtain ⟨k, hk, hlist⟩ := Option.map_eq_some_iff.mp hblock
  have hgraphs : severedGraphs = .ok (g, g') := toOption_eq_some_iff.mp hsevered
  obtain ⟨⟨frontier, g''⟩, hrun, heq⟩ : ∃ r, (discover >>= fun _ => computeDominators) g = .ok r ∧ r.2 = g' := by
    obtain ⟨⟨_, raw⟩, -, hrest⟩ := bind_eq_ok.mp hgraphs
    obtain ⟨⟨_, g₀⟩, -, hrest⟩ := bind_eq_ok.mp hrest
    obtain ⟨⟨_, g₁⟩, -, hrest⟩ := bind_eq_ok.mp hrest
    obtain ⟨r, hrun, hpair⟩ := bind_eq_ok.mp hrest
    obtain ⟨rfl, hr⟩ := Prod.mk.inj (Except.ok.inj hpair)
    exact ⟨r, hrun, hr⟩
  obtain rfl : g'' = g' := heq
  obtain ⟨t, ht, -, rfl⟩ := (leads_dominators (.inl trivial)).post_of_ok hrun
  have hvisited : t.preorder = [⟨0⟩, ⟨1⟩, ⟨2⟩] := hpreorder
  refine ⟨g, frontier, _, k, hgraphs, hrun, hk, hlist, fun b hb hreach => ?_⟩
  have hmem : b ∈ t.preorder := ht.mem_preorder_iff_reachable.mpr hreach
  rw [hlist] at hb
  rw [hvisited] at hmem
  revert hmem
  obtain rfl | rfl : b = ⟨5⟩ ∨ b = ⟨4⟩ := by simpa using hb
  all_goals decide

/-- A loop that is entered at two blocks, and after it two edges to a block that leads to itself. -/
def crossing : List Command :=
  [.targetBlock, .targetBlock, .joinBlock, .joinBlock, .targetBlock, .targetBlock, .joinBlock,
    .inst (.loadLocal 0), .inst (.branch (.strict .eqStrict ⟨0⟩ ⟨0⟩) ⟨2⟩ ⟨3⟩),
    .appendTo ⟨2⟩, .inst (.goto ⟨4⟩), .appendTo ⟨3⟩, .inst (.goto ⟨5⟩), .appendTo ⟨4⟩, .inst (.goto ⟨5⟩),
    .appendTo ⟨5⟩, .inst (.branch (.strict .eqStrict ⟨0⟩ ⟨0⟩) ⟨6⟩ ⟨7⟩), .appendTo ⟨6⟩, .inst (.goto ⟨4⟩),
    .appendTo ⟨7⟩, .inst (.branch (.strict .eqStrict ⟨0⟩ ⟨0⟩) ⟨8⟩ ⟨8⟩), .appendTo ⟨8⟩, .inst (.goto ⟨8⟩)]

def dominatorsOf (g : FlowGraph) : List (Option Nat) :=
  match (discover >>= fun _ => computeDominators) g with
  | .ok (_, g') => g'.blocks.toList.map fun k => k.dominator.map BlockId.index
  | .error _ => []

/-- Neither of the two blocks where the loop is entered dominates the other one. -/
theorem crossing_dominators : ∃ b g frontier g', Command.script crossing FlowGraph.normalEntry (FlowGraph.new "f" 1 0) =
    some (b, g) ∧ g.Walkable ∧ (discover >>= fun _ => computeDominators) g = .ok (frontier, g') ∧
    (g'.blocks.toList.map fun k => k.dominator.map BlockId.index) =
      [none, some 0, some 1, some 1, some 1, some 1, some 5, some 5, some 7] ∧ ExactDominators g g' := by
  have hcompute : ((Command.script crossing FlowGraph.normalEntry (FlowGraph.new "f" 1 0)).map fun r =>
      (r.2.catchEntries, dominatorsOf r.2)) =
        some ([], [none, some 0, some 1, some 1, some 1, some 1, some 5, some 5, some 7]) := by decide +kernel
  obtain ⟨⟨b, g⟩, hscript, hdominators⟩ := Option.map_eq_some_iff.mp hcompute
  obtain ⟨hcatch, hdominators⟩ := Prod.mk.inj hdominators
  have hstart : Built FlowGraph.normalEntry (FlowGraph.new "f" 1 0) := @Built.start "f" 1 0 none (by decide)
  have hwalkable : g.Walkable := (hstart.script hscript).raw.1.walkable hcatch
  obtain ⟨⟨frontier, g'⟩, hrun⟩ := (dominators_exact g).1 hwalkable
  rw [dominatorsOf, hrun] at hdominators
  exact ⟨b, g, frontier, g', hscript, hwalkable, hrun, hdominators, (dominators_exact g).2 frontier g' hrun⟩

end Flow

end Midend
