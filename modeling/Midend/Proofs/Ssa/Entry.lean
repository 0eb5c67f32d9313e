import Midend.Proofs.Ssa.Walk

/-! # Renaming the whole graph

Renaming makes the null constant and the parameters, which the variables hold at the entry, and walks the tree
from there.
-/

namespace Midend.Ssa

open Midend.Flow

variable {r g g₀ : FlowGraph} {t : Tour} {ps : List (BlockId × Nat)}

/-- The graph `r` once its blocks are ordered and the dominator tree is recorded. -/
def recorded (r : FlowGraph) (t : Tour) : FlowGraph := (onTour r t).mapBlocks (t.placed t.preorder)

theorem blocks_recorded (b : BlockId) :
    (recorded r t).blocks[b.index]? = (t.blocks[b.index]?).map (t.placed t.preorder b) :=
  FlowGraph.blocks_mapBlocks (g := onTour r t) b

/-- What is known of the graph before phis are placed. -/
structure Toured (r : FlowGraph) (t : Tour) : Prop where
  raw : Raw r
  catchEntries : r.catchEntries = []
  touring : Touring r t []
  split : ∀ b ∈ t.preorder, b ≠ FlowGraph.graphEntry → SplitAt r t b

theorem follows_recorded : InTourOrder t (recorded r t) := by
  refine ⟨rfl, rfl, rfl, rfl, ?_, fun b k hk => ?_⟩
  · simp [recorded, onTour]
  · rw [blocks_recorded] at hk
    obtain ⟨k', hk', rfl⟩ := Option.map_eq_some_iff.mp hk
    refine ⟨k', hk', ?_⟩
    unfold Tour.placed
    split <;> exact ⟨rfl, rfl, rfl⟩

theorem Toured.ready (h : Toured r t) : Ready r t (recorded r t) where
  touring := h.touring
  inputs _ hjoin := inputs_lt h.raw h.catchEntries h.touring h.split hjoin
  follows := follows_recorded

theorem phiIds_nodup (start : Nat) (ps : List (BlockId × Nat)) (b : BlockId) : (phiIds start ps b).Nodup := by
  induction ps using List.reverseRecOn with
  | nil => exact List.nodup_nil
  | append_singleton ps p ih =>
    rw [phiIds_concat]
    refine List.nodup_append.mpr ⟨ih, by split <;> simp, ?_⟩
    rintro i hi _ hi' rfl
    obtain ⟨j, v, hj, hget⟩ := mem_phiIds.mp hi
    have hlt := (List.getElem?_eq_some_iff.mp hget).1
    split at hi'
    · rw [List.mem_singleton.mp hi'] at hj
      simp only at hj
      omega
    · cases hi'

theorem Toured.exists_block (h : Toured r t) {b : BlockId} {k : Block}
    (hk : (withPhis t (recorded r t) ps).blocks[b.index]? = some k) :
    ∃ k', t.blocks[b.index]? = some k' ∧ k = { t.placed t.preorder b k' with phis := phiIds r.nodes.size ps b } := by
  rw [blocks_withPhis, blocks_recorded, Option.map_map] at hk
  obtain ⟨k', hk', rfl⟩ := Option.map_eq_some_iff.mp hk
  refine ⟨k', hk', ?_⟩
  have hnone : (t.placed t.preorder b k').phis = [] := by
    rw [show (t.placed t.preorder b k').phis = k'.phis by unfold Tour.placed; split <;> rfl]
    obtain ⟨k, hk, -, hphis, -⟩ := h.touring.kept b k' hk'
    rw [hphis, h.raw.block b k hk]
  simp only [Function.comp_apply, hnone, List.nil_append]
  rfl

theorem Toured.base (h : Toured r t) (hplaced : Placed t ps)
    (hvars : ∀ q ∈ ps, q.2 < r.parameterCount + r.localCount) : Base r t (withPhis t (recorded r t) ps) where
  raw := h.raw
  catchEntries := h.catchEntries
  touring := h.touring
  split := h.split
  layout := rfl
  counts := ⟨rfl, rfl⟩
  noCatch := h.catchEntries
  preorder := rfl
  postorder := rfl
  size := by simp [withPhis, FlowGraph.mapBlocks, recorded, onTour, h.touring.size]
  kind := by
    intro b k hk
    obtain ⟨k', hk', rfl⟩ := h.exists_block hk
    rw [hk', Option.map_some, Option.some_inj]
    unfold Tour.placed
    split <;> rfl
  block := by
    intro b k hk hb
    obtain ⟨k', hk', rfl⟩ := h.exists_block hk
    unfold Tour.placed
    rw [if_pos hb]
    exact ⟨(Tour.preds_eq hk' hb).symm, if_pos hb, rfl⟩
  old := by
    intro i n hn
    rw [nodes_withPhis, if_pos (show i.index < (recorded r t).nodes.size from (Array.getElem?_eq_some_iff.mp hn).1)]
    exact hn
  phi := by
    intro b k hk i hi
    obtain ⟨k', hk', rfl⟩ := h.exists_block hk
    obtain ⟨j, v, hj, hget⟩ := mem_phiIds.mp hi
    have hmem : (b, v) ∈ ps := List.mem_of_getElem? hget
    obtain ⟨hb, hjoin⟩ := hplaced b v hmem
    refine ⟨by rw [hj]; exact Nat.le_add_right _ _, hb, hjoin, v, hvars (b, v) hmem, ?_⟩
    have hsize : (recorded r t).nodes.size = r.nodes.size := rfl
    rw [nodes_withPhis, hsize, if_neg (by rw [hj]; exact Nat.not_lt.mpr (Nat.le_add_right _ _)), hj,
      Nat.add_sub_cancel_left, hget]
    rfl
  phis_nodup := by
    intro b k hk
    obtain ⟨k', hk', rfl⟩ := h.exists_block hk
    exact phiIds_nodup _ _ _
  initial := by
    intro d hd
    rw [show (withPhis t (recorded r t) ps).initialDefinitions = r.initialDefinitions from rfl, h.raw.initial] at hd
    cases hd
  all := by
    intro i n hn
    by_cases hlt : i.index < r.nodes.size
    · exact .inl hlt
    · have hsize : (recorded r t).nodes.size = r.nodes.size := rfl
      rw [nodes_withPhis, hsize, if_neg hlt] at hn
      obtain ⟨⟨b, v⟩, hget, -⟩ := Option.map_eq_some_iff.mp hn
      obtain ⟨hb, -⟩ := hplaced b v (List.mem_of_getElem? hget)
      obtain ⟨k, hk⟩ := h.touring.exists_block (h.touring.inRange b hb)
      refine .inr (.inl ⟨b, { t.placed t.preorder b k with phis := phiIds r.nodes.size ps b }, ?_, ?_⟩)
      · obtain ⟨k', hk'⟩ : ∃ k', (withPhis t (recorded r t) ps).blocks[b.index]? = some k' :=
          ⟨_, by rw [blocks_withPhis, blocks_recorded, hk]; rfl⟩
        obtain ⟨k'', hk'', rfl⟩ := h.exists_block hk'
        obtain rfl : k = k'' := by simpa [hk] using hk''
        exact hk'
      · exact mem_phiIds.mpr ⟨i.index - r.nodes.size, v, by omega, hget⟩
  numbered := by
    refine .of_unindexed fun i n hn => ?_
    rw [nodes_withPhis] at hn
    split at hn
    case isTrue => exact h.raw.unnamed i n hn
    case isFalse =>
      obtain ⟨_, -, rfl⟩ := Option.map_eq_some_iff.mp hn
      rfl
  indexed := by
    intro d hd
    rw [show (withPhis t (recorded r t) ps).initialDefinitions = r.initialDefinitions from rfl, h.raw.initial] at hd
    cases hd

def PhiFor (g₀ : FlowGraph) (b : BlockId) (v : Nat) : Prop := ∃ phi ∈ phisOf g₀ b, slotOf g₀ phi = v

theorem Toured.phiFor_iff (h : Toured r t) (hplaced : Placed t ps) {b : BlockId} {v : Nat} :
    PhiFor (withPhis t (recorded r t) ps) b v ↔ (b, v) ∈ ps := by
  have hsize : (recorded r t).nodes.size = r.nodes.size := rfl
  have hslot : ∀ j c w, ps[j]? = some (c, w) → slotOf (withPhis t (recorded r t) ps) ⟨r.nodes.size + j⟩ = w := by
    intro j c w hj
    have hnode := nodes_withPhis (t := t) (g := recorded r t) ps ⟨r.nodes.size + j⟩
    simp only [hsize, Nat.not_lt.mpr (Nat.le_add_right _ _), if_false, Nat.add_sub_cancel_left, hj] at hnode
    simp [slotOf, hnode, phiNode]
  constructor
  · rintro ⟨phi, hphi, rfl⟩
    obtain ⟨k, hk, hmem⟩ := exists_of_mem_phisOf hphi
    obtain ⟨k', -, rfl⟩ := h.exists_block hk
    obtain ⟨j, v, hj, hget⟩ := mem_phiIds.mp hmem
    obtain rfl : phi = ⟨r.nodes.size + j⟩ := InstId.index_inj.mp hj
    rw [hslot j b v hget]
    exact List.mem_of_getElem? hget
  · intro hv
    obtain ⟨j, hj⟩ := List.mem_iff_getElem?.mp hv
    obtain ⟨hb, -⟩ := hplaced b v hv
    obtain ⟨k, hk⟩ := h.touring.exists_block (h.touring.inRange b hb)
    refine ⟨⟨r.nodes.size + j⟩, ?_, hslot j b v hj⟩
    obtain ⟨k', hk'⟩ : ∃ k', (withPhis t (recorded r t) ps).blocks[b.index]? = some k' :=
      ⟨_, by rw [blocks_withPhis, blocks_recorded, hk]; rfl⟩
    obtain ⟨k'', -, rfl⟩ := h.exists_block hk'
    rw [phisOf_eq hk']
    exact mem_phiIds.mpr ⟨j, v, rfl, hj⟩

/-! ## Initial definitions -/

theorem Base.withInitial (h : Base r t g) {d : Inst} (hgiven : d.isGiven = true) : Base r t (g.withInitial d) where
  raw := h.raw
  catchEntries := h.catchEntries
  touring := h.touring
  split := h.split
  layout := h.layout
  counts := h.counts
  noCatch := h.noCatch
  preorder := h.preorder
  postorder := h.postorder
  size := h.size
  kind := h.kind
  block := h.block
  old := fun i n hn => FlowGraph.nodes_withInitial_of_some (h.old i n hn)
  phi := by
    intro b k hk i hi
    obtain ⟨hnew, hb, hjoin, v, hv, hnode⟩ := h.phi b k hk i hi
    exact ⟨hnew, hb, hjoin, v, hv, FlowGraph.nodes_withInitial_of_some hnode⟩
  phis_nodup := h.phis_nodup
  initial := by
    intro i hi
    obtain hi | hi := List.mem_append.mp hi
    · obtain ⟨hnew, n, hn, hrest⟩ := h.initial i hi
      exact ⟨hnew, n, FlowGraph.nodes_withInitial_of_some hn, hrest⟩
    · obtain rfl := List.mem_singleton.mp hi
      obtain ⟨hargs, hphi, hlocal⟩ : d.args = [] ∧ d.isPhi = false ∧ d.isLocal = false := by
        obtain ⟨c, rfl⟩ | ⟨k, rfl⟩ := Inst.eq_of_isGiven hgiven <;> exact ⟨rfl, rfl, rfl⟩
      refine ⟨?_, _, by rw [FlowGraph.nodes_withInitial, if_pos rfl], rfl, hargs, hphi, hlocal, rfl, rfl, hgiven⟩
      by_contra hlt
      have hr := h.old g.nextId _ (Array.getElem?_eq_getElem (Nat.not_le.mp hlt))
      simp [FlowGraph.nextId] at hr
  all := by
    intro i n hn
    rw [FlowGraph.nodes_withInitial] at hn
    split at hn
    case isTrue hi => exact .inr (.inr (List.mem_append_right _ (List.mem_singleton.mpr hi)))
    case isFalse => exact (h.all i n hn).imp_right (Or.imp_right fun hi => List.mem_append_left _ hi)
  numbered := h.numbered.grown rfl
    (fun _ hk => Option.some_inj.mp hk ▸ ⟨Nat.le_refl _, Nat.lt_succ_self _⟩) (Nat.le_succ _)
  indexed := by
    intro i hi
    obtain hi | hi := List.mem_append.mp hi
    · obtain ⟨n, hn, hindex⟩ := h.indexed i hi
      exact ⟨n, FlowGraph.nodes_withInitial_of_some hn, hindex⟩
    · obtain rfl := List.mem_singleton.mp hi
      exact ⟨_, by rw [FlowGraph.nodes_withInitial, if_pos rfl], rfl⟩

/-- The graph has more initial definitions, and is otherwise the same. -/
structure Extends (g g' : FlowGraph) : Prop where
  nodes : ∀ (i : InstId) (n : Node), g.nodes[i.index]? = some n → g'.nodes[i.index]? = some n
  initial : g.initialDefinitions ⊆ g'.initialDefinitions
  blocks : g'.blocks = g.blocks

theorem Extends.refl (g : FlowGraph) : Extends g g := ⟨fun _ _ h => h, List.Subset.refl _, rfl⟩

theorem Extends.trans {g' g'' : FlowGraph} (h : Extends g g') (h' : Extends g' g'') : Extends g g'' :=
  ⟨fun i n hn => h'.nodes i n (h.nodes i n hn), List.Subset.trans h.initial h'.initial, h'.blocks.trans h.blocks⟩

theorem Extends.withInitial (g : FlowGraph) (d : Inst) : Extends g (g.withInitial d) :=
  ⟨fun _ _ hn => FlowGraph.nodes_withInitial_of_some hn, List.subset_append_left _ _, rfl⟩

theorem Extends.phisOf {g' : FlowGraph} (h : Extends g g') (b : BlockId) : phisOf g' b = phisOf g b := by
  unfold Ssa.phisOf
  rw [h.blocks]

theorem Extends.phiFor_iff {g' : FlowGraph} (h : Extends g g') (hg : Base r t g) {b : BlockId} {v : Nat} :
    PhiFor g' b v ↔ PhiFor g b v := by
  unfold PhiFor
  rw [h.phisOf]
  refine exists_congr fun phi => and_congr_right fun hphi => ?_
  obtain ⟨-, -, -, -, hnode⟩ := hg.phi_of_mem hphi
  unfold slotOf
  rw [hnode, h.nodes phi _ hnode]

/-- The instruction is an initial definition of the given form. -/
def IsInitial (g : FlowGraph) (d : InstId) (i : Inst) : Prop :=
  d ∈ g.initialDefinitions ∧ ∃ n, g.nodes[d.index]? = some n ∧ n.inst = i

theorem IsInitial.extends {g' : FlowGraph} {d : InstId} {i : Inst} (hd : IsInitial g d i) (h : Extends g g') :
    IsInitial g' d i := by
  obtain ⟨hmem, n, hn, hinst⟩ := hd
  exact ⟨h.initial hmem, n, h.nodes d n hn, hinst⟩

theorem isInitial_withInitial (g : FlowGraph) (i : Inst) : IsInitial (g.withInitial i) g.nextId i :=
  ⟨List.mem_append_right _ (List.mem_singleton_self _), _, by rw [FlowGraph.nodes_withInitial, if_pos rfl], rfl⟩

theorem ends_addParameters (h : Base r t g) (ks : List Nat) {bail : Bailout → Prop} :
    Ends False bail g (ks.mapM fun k => (addParameter k : Construct InstId)) fun ds g' => Base r t g' ∧ Extends g g' ∧
      List.Forall₂ (fun k d => IsInitial g' d (.parameter k)) ks ds := by
  induction ks generalizing g with
  | nil => exact ⟨h, .refl g, .nil⟩
  | cons k ks ih =>
    rw [List.mapM_cons, Ends.bind_iff, Ends.lift_iff]
    refine (Leads.addInitial_iff (d := .parameter k)).mpr ?_
    rw [Ends.bind_iff]
    refine (ih (h.withInitial rfl)).mono ?_
    rintro ds g' ⟨h', hext, hds⟩
    rw [Ends.pure_iff]
    exact ⟨h', (Extends.withInitial g _).trans hext, .cons ((isInitial_withInitial g _).extends hext) hds⟩

def initialInst (r : FlowGraph) (k : Nat) : Inst := if k < r.parameterCount then .parameter k else .constant .null

structure Starts (r g₀ : FlowGraph) (init : Frame) : Prop where
  length : init.length = r.parameterCount + r.localCount
  holds : ∀ k d, init[k]? = some d → IsInitial g₀ d (initialInst r k)
  null : ∃ d, IsInitial g₀ d (.constant .null)

/-- The frame that a block starts from, given those at the ends of the blocks. -/
def into (t : Tour) (init : Frame) (out : BlockId → Frame) (b : BlockId) : Frame :=
  if b = FlowGraph.normalEntry then init else ((t.idom? b).map out).getD []

/-- All blocks have been renamed, with the frames `out` at their ends. -/
structure AllRenamed (r : FlowGraph) (t : Tour) (g₀ : FlowGraph) (init : Frame) (s : Names) (g : FlowGraph)
    (out : BlockId → Frame) : Prop where
  base : Base r t g₀
  starts : Starts r g₀ init
  progress : Progress r g₀ (t.preorder.flatMap r.insts) g
  live : ∀ j, j ∈ s.live ↔ aliveIn g j = true
  block : ∀ b ∈ t.preorder, b ≠ FlowGraph.graphEntry → Renamed r t g₀ s g b (into t init out b) (out b)
  names : g₀.KeepsNames g

theorem Walked.allRenamed {init : Frame} {s : Names} {outs : List (BlockId × Frame)} (h : Base r t g₀)
    (hinit : Starts r g₀ init) (hw : Walked r t g₀ init s g outs []) : ∃ out, AllRenamed r t g₀ init s g out := by
  have hnodup := hw.nodup
  rw [List.append_nil] at hnodup
  let out (b : BlockId) : Frame := (outs.lookup b).getD []
  have hout : ∀ b f, (b, f) ∈ outs → out b = f := by
    intro b f hmem
    obtain ⟨front, rest, hsplit⟩ := List.append_of_mem hmem
    have hlookup : outs.lookup b = some f := by
      refine List.lookup_eq_some_iff.mpr ⟨front, rest, hsplit, fun o ho => bne_iff_ne.mpr ?_⟩
      rintro rfl
      rw [hsplit, List.map_append, List.map_cons] at hnodup
      exact (List.nodup_append.mp hnodup).2.2 _ (List.mem_map_of_mem ho) _ List.mem_cons_self rfl
    simp only [out, hlookup, Option.getD_some]
  have hall : ∀ b ∈ t.preorder, b ≠ FlowGraph.graphEntry → b ∈ outs.map Prod.fst := by
    intro b hb hne
    refine h.touring.tree_induction h.catchEntries (motive := (· ∈ outs.map Prod.fst)) ?_ ?_ hb hne
    · simpa using hw.first
    · intro b d hd _ hmem
      simpa using hw.below b d hd hmem
  refine ⟨out, h, hinit, hw.progress.mono ?_, hw.known.live, fun b hb hne => ?_, hw.names⟩
  · intro x hx
    obtain ⟨o, ho, hxo⟩ := List.mem_flatMap.mp hx
    exact List.mem_flatMap.mpr ⟨o.1, (hw.visited o (List.mem_append_left _ ho)).1, hxo⟩
  · obtain ⟨⟨c, f'⟩, ho, hc⟩ := List.mem_map.mp (hall b hb hne)
    obtain rfl : c = b := hc
    obtain ⟨f, henters, hrenamed⟩ := hw.done _ ho
    have hf : into t init out c = f := by
      unfold into
      obtain ⟨hnormal, rfl⟩ | ⟨hnormal, d, hd, hmem⟩ := henters
      · exact if_pos hnormal
      · rw [if_neg hnormal]
        simp only at hd
        rw [hd, Option.map_some, Option.getD_some, hout d f hmem]
    rw [hf, hout c f' ho]
    exact hrenamed

theorem Base.not_alive (h : Base r t g₀) (j : InstId) : aliveIn g₀ j = false := by
  unfold aliveIn
  cases hn : g₀.nodes[j.index]? with
  | none => rfl
  | some n =>
    simp only [Option.map_some, Option.getD_some]
    obtain hlt | ⟨b, k, hk, hj⟩ | hj := h.all j n hn
    · have hr : r.nodes[j.index]? = some r.nodes[j.index] := Array.getElem?_eq_getElem hlt
      obtain rfl : r.nodes[j.index] = n := by simpa [h.old j _ hr] using hn
      exact Inst.isAlivePhi_of_not_isPhi (h.isPhi_of_raw hr)
    · obtain ⟨-, -, -, v, -, hv⟩ := h.phi b k hk j hj
      obtain rfl : phiNode t b v = n := by simpa [hv] using hn
      rfl
    · obtain ⟨-, m, hm, -, -, hphi, -⟩ := h.initial j hj
      obtain rfl : m = n := by simpa [hm] using hn
      exact Inst.isAlivePhi_of_not_isPhi hphi

theorem Starts.of_parameters {g₀ : FlowGraph} {ds : List InstId} {null : InstId}
    (hds : List.Forall₂ (fun k d => IsInitial g₀ d (.parameter k)) (List.range r.parameterCount) ds)
    (hnull : IsInitial g₀ null (.constant .null)) : Starts r g₀ (ds ++ List.replicate r.localCount null) := by
  have hlen : ds.length = r.parameterCount := by rw [← hds.length_eq, List.length_range]
  refine ⟨by simp [hlen], fun k d hk => ?_, _, hnull⟩
  unfold initialInst
  split
  case isTrue hlt =>
    rw [List.getElem?_append_left (by omega)] at hk
    obtain ⟨hkd, rfl⟩ := List.getElem?_eq_some_iff.mp hk
    have hk' : k < (List.range r.parameterCount).length := by rwa [List.length_range]
    simpa using (List.forall₂_iff_get.mp hds).2 k hk' hkd
  case isFalse hle =>
    rw [List.getElem?_append_right (by omega)] at hk
    rw [List.eq_of_mem_replicate (List.mem_of_getElem? hk)]
    exact hnull

/-- The walk starts at the normal entry. -/
theorem Walked.start {g₀ : FlowGraph} {init : Frame} (h : Base r t g₀) (hinit : Starts r g₀ init) :
    Walked r t g₀ init {} g₀ [] [(FlowGraph.normalEntry, init)] where
  progress := .start h
  known := ⟨by simp, by simp, fun j => by simp [h.not_alive j]⟩
  nodup := by simp
  visited := by
    rintro _ (_ | ⟨_, ⟨⟩⟩)
    exact ⟨List.mem_of_getElem? (h.touring.preorder_one h.catchEntries), by
      simp [FlowGraph.normalEntry, FlowGraph.graphEntry]⟩
  done := by simp
  pending := by
    rintro _ (_ | ⟨_, ⟨⟩⟩)
    refine ⟨⟨Nat.le_of_eq hinit.length.symm, fun v hv => ?_⟩, .inl ⟨rfl, rfl⟩⟩
    obtain ⟨k, hk⟩ := List.mem_iff_getElem?.mp hv
    obtain ⟨-, n, hn, -⟩ := hinit.holds k v hk
    exact (Array.getElem?_eq_some_iff.mp hn).1
  below := by simp
  first := by simp
  names := .refl g₀

/-- The frame that the walk starts with, and the number of blocks. -/
def startFrame : Construct (Frame × Nat) := do
  let null ← Edit.getConstant .null
  let g ← getThe FlowGraph
  let parameters ← (List.range g.parameterCount).mapM fun k => (addParameter k : Construct InstId)
  return (parameters ++ List.replicate g.localCount null, g.blocks.size)

theorem rename_eq : rename = (do
    let (frame, size) ← startFrame
    let ((), names) ← StateT.run (renameTree (size + 1) [(FlowGraph.normalEntry, frame)]) {}
    return names.live) := by
  unfold rename startFrame
  simp only [bind_assoc, pure_bind]

theorem ends_startFrame (h : Base r t g) (hnone : g.initialDefinitions = []) {bail : Bailout → Prop} :
    Ends False bail g startFrame fun start g₀ => Base r t g₀ ∧ Extends g g₀ ∧ Starts r g₀ start.1 ∧
      start.2 = r.blocks.size := by
  unfold startFrame
  rw [Ends.bind_iff, Ends.lift_iff]
  refine (Leads.getConstant fun _ d hd => absurd hd (by simp [hnone])).mono ?_
  rintro null _ (⟨-, hmem, -⟩ | ⟨rfl, rfl⟩)
  · simp [hnone] at hmem
  rw [Ends.bind_iff, Ends.getThe_iff, Ends.bind_iff]
  refine (ends_addParameters (h.withInitial rfl) _).mono ?_
  rintro ds g₀ ⟨h₀, hext, hds⟩
  have hnull : IsInitial g₀ g.nextId (.constant .null) := (isInitial_withInitial g _).extends hext
  rw [Ends.pure_iff]
  refine ⟨h₀, (Extends.withInitial g _).trans hext, ?_, h.size⟩
  have hstarts := Starts.of_parameters (h.counts.1 ▸ hds) hnull
  rwa [← h.counts.2] at hstarts

theorem gives_rename (h : Base r t g) (hnone : g.initialDefinitions = []) :
    Gives False g rename fun live g' => ∃ g₀ init s out, Extends g g₀ ∧ live = s.live ∧
      AllRenamed r t g₀ init s g' out := by
  rw [rename_eq, Gives.bind_iff]
  refine (ends_startFrame h hnone).mono ?_
  rintro ⟨init, _⟩ g₀ ⟨h₀, hext, hstarts, rfl⟩
  simp only
  rw [Gives.bind_iff]
  refine Gives.mono (renames_renameTree h₀ (.start h₀ hstarts) (by simp)) ?_
  rintro ⟨_, s⟩ g' ⟨outs, hw⟩
  obtain ⟨out, hall⟩ := hw.allRenamed h₀ hstarts
  exact ⟨g₀, _, s, out, hext, rfl, hall⟩

end Midend.Ssa
