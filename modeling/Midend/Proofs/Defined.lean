import Midend.Proofs.Consistency
import Midend.Proofs.Flow.Exact
import Midend.Proofs.Graph.Places

/-! # Consistent graphs read nothing undefined

The check of a graph looks at blocks, lists and the dominator tree. Here it is tied to the paths through the graph:
wherever control goes, what an instruction reads has been evaluated on the way.
-/

namespace Midend

open Midend.Flow

namespace FlowGraph

variable {g : FlowGraph} {a b p : BlockId} {d i u : InstId} {path : List BlockId} {front back : List InstId}

/-! ## Evaluation along a path -/

/-- The live phis of a block, none where they cannot be read. -/
def live (g : FlowGraph) (b : BlockId) : List InstId := (g.livePhis b).toOption.getD []

/-- What has been evaluated when control comes to the instructions of the last block of a path. The phis of a block are
evaluated on the edge to it. -/
def arrived (g : FlowGraph) : List BlockId → List InstId
  | [] => []
  | b :: path => arrived g path ++ g.insts (path.headD graphEntry) ++ g.live b

/-- Along every path, each input of an instruction in a block that `checked` holds of has been evaluated before the
instruction, and so has the input of each live phi that belongs to an edge before the edge is taken. Initial definitions
need no evaluation. -/
structure ReadsDefined (g : FlowGraph) (checked : BlockId → Prop) : Prop where
  inputs : ∀ path, g.IsPath path → checked (path.headD graphEntry) →
    ∀ front i back, g.insts (path.headD graphEntry) = front ++ i :: back → ∃ n, g.nodes[i.index]? = some n ∧
      ∀ d ∈ n.inst.args, d ∈ g.initialDefinitions ∨ d ∈ g.arrived path ++ front
  edges : ∀ path b, g.IsPath path → g.Edge (path.headD graphEntry) b →
    ∃ ps, g.preds b = .ok ps ∧ path.headD graphEntry ∈ ps ∧ ∀ phi ∈ g.live b, ∃ as, g.args phi = .ok as ∧
      ∀ k : Nat, ps[k]? = some (path.headD graphEntry) → ∃ d, as[k]? = some d ∧
        (d ∈ g.initialDefinitions ∨ d ∈ g.arrived path ++ g.insts (path.headD graphEntry))

theorem mem_live_iff : i ∈ g.live b ↔ ∃ ps, g.livePhis b = .ok ps ∧ i ∈ ps := by
  unfold live
  cases g.livePhis b <;> simp [Except.toOption]

theorem insts_graphEntry_subset (path : List BlockId) (hd : d ∈ g.insts graphEntry) :
    d ∈ g.arrived path ++ g.insts (path.headD graphEntry) := by
  induction path with
  | nil => simpa [arrived] using hd
  | cons b path ih =>
    rw [arrived]
    exact List.mem_append_left _ (List.mem_append_left _ ih)

theorem mem_arrived_of_mem (ha : a ∈ path) (hd : d ∈ g.insts a ∨ d ∈ g.live a) :
    d ∈ g.arrived path ++ g.insts (path.headD graphEntry) := by
  induction path with
  | nil => cases ha
  | cons b path ih =>
    rw [arrived, List.headD_cons]
    obtain rfl | ha := List.mem_cons.mp ha
    · obtain hd | hd := hd
      · exact List.mem_append_right _ hd
      · exact List.mem_append_left _ (List.mem_append_right _ hd)
    · exact List.mem_append_left _ (List.mem_append_left _ (ih ha))

theorem exists_of_mem_arrived (hd : d ∈ g.arrived path) : ∃ a ∈ path ++ [graphEntry], d ∈ g.insts a ∨ d ∈ g.live a := by
  induction path with
  | nil => cases hd
  | cons b path ih =>
    rw [arrived, List.mem_append, List.mem_append] at hd
    obtain (hd | hd) | hd := hd
    · obtain ⟨a, ha, hd⟩ := ih hd
      exact ⟨a, List.mem_cons_of_mem b ha, hd⟩
    · refine ⟨path.headD graphEntry, List.mem_cons_of_mem b ?_, .inl hd⟩
      cases path <;> simp
    · exact ⟨b, List.mem_cons_self, .inr hd⟩

/-! ## Orders that are up to date -/

/-- What the last discovery and the last computation of dominators left in the graph. -/
def orders (g : FlowGraph) : List BlockId × List (List BlockId × Option BlockId) :=
  (g.postorder, g.blocks.toList.map fun k => (k.preds, k.dominator))

/-- Discovering the blocks and computing their dominators again changes nothing. -/
def UpToDate (g : FlowGraph) : Prop :=
  ∃ frontier g', (discover >>= fun _ => computeDominators) g = .ok (frontier, g') ∧ g'.orders = g.orders

theorem dominatesUpTo_congr {g' : FlowGraph} (h : ∀ b : BlockId, (g'.blocks[b.index]?).map Block.dominator =
    (g.blocks[b.index]?).map Block.dominator) (fuel : Nat) : g'.dominatesUpTo a fuel b = g.dominatesUpTo a fuel b := by
  induction fuel generalizing b with
  | zero => rfl
  | succ fuel ih =>
    unfold dominatesUpTo
    split
    · rfl
    have hb := h b
    unfold block
    cases hk' : g'.blocks[b.index]? with
    | none =>
      cases hk : g.blocks[b.index]? with
      | none => rfl
      | some k => simp [hk, hk'] at hb
    | some k' =>
      cases hk : g.blocks[b.index]? with
      | none => simp [hk, hk'] at hb
      | some k =>
        have hdominator : k'.dominator = k.dominator := by simpa [hk, hk'] using hb
        simp only [orFault, bind, Except.bind, hdominator]
        cases k.dominator with
        | none => rfl
        | some d => exact ih

theorem UpToDate.exact (h : g.UpToDate) : (∀ b, g.Reachable b → b ∈ g.reversePostorder) ∧
    ∀ a b, g.Reachable b → ∃ r, g.dominates a b = .ok r ∧ (r = true ↔ g.Dominates a b) := by
  obtain ⟨frontier, g', hrun, horders⟩ := h
  have hexact := exactDominators_of_run hrun
  obtain ⟨t, ht, -, hg'⟩ := (leads_dominators (.inl trivial)).post_of_ok hrun
  obtain ⟨hpost, hblocks⟩ := Prod.mk.inj horders
  constructor
  · intro b hb
    have hmem : b ∈ t.postorder := ht.opened.symm.subset (ht.mem_preorder_iff_reachable.mpr hb)
    rw [reversePostorder, List.mem_reverse, ← hpost, hg']
    exact hmem
  · intro a b hb
    obtain ⟨r, hr, hiff⟩ := hexact.dominates a b hb
    have hsize : g'.blocks.size = g.blocks.size := by simpa using congrArg List.length hblocks
    have hdominator (c : BlockId) : (g'.blocks[c.index]?).map Block.dominator =
        (g.blocks[c.index]?).map Block.dominator := by
      have h := congrArg (fun l => (l[c.index]?).map Prod.snd) hblocks
      simpa [Function.comp_def] using h
    refine ⟨r, ?_, hiff⟩
    rw [← hr, dominates, dominates, hsize]
    exact (dominatesUpTo_congr hdominator _).symm

theorem UpToDate.reachable_of_mem_order (h : g.UpToDate) (hb : b ∈ g.reversePostorder) : g.Reachable b := by
  obtain ⟨frontier, g', hrun, horders⟩ := h
  obtain ⟨t, ht, -, rfl⟩ := (leads_dominators (.inl trivial)).post_of_ok hrun
  have hmem : b ∈ t.postorder := by
    rw [reversePostorder, List.mem_reverse, ← (Prod.mk.inj horders).1] at hb
    exact hb
  exact ht.mem_preorder_iff_reachable.mp (ht.opened.subset hmem)

/-! ## What the check says about paths -/

/-- No instruction in the list of a block is a phi. -/
def NoPhiPlaced (g : FlowGraph) : Prop :=
  ∀ k (hk : k < g.nodes.size), g.isPlaced ⟨k⟩ = true → g.nodes[k].inst.opcode ≠ .phi

/-- Phis are where the graph keeps them: none of them is placed like other instructions, and the graph entry, which no
edge leads to, has no live ones. -/
structure PhisApart (g : FlowGraph) : Prop where
  placed : g.NoPhiPlaced
  entry : g.live graphEntry = []

theorem PhisApart.opcode_ne_phi (hapart : g.PhisApart) (hg : g.Located) {n : Node} (hi : i ∈ g.insts b)
    (hn : g.nodes[i.index]? = some n) : n.inst.opcode ≠ .phi := by
  obtain ⟨hlt, rfl⟩ := Array.getElem?_eq_some_iff.mp hn
  exact hapart.placed i.index hlt (Layout.isPlaced_iff.mpr ⟨b, hg.mem_insts_iff.mp hi⟩)

/-- A definition that is present is on the list of the block that it knows, a live phi of it, or an initial one. -/
theorem Located.cases_present (hg : g.Located) (hpresent : g.isPresent d = .ok true) :
    ∃ n a, g.nodes[d.index]? = some n ∧ n.block = some a ∧
      (d ∈ g.initialDefinitions ∨ d ∈ g.insts a ∨ n.inst.opcode = .phi ∧ n.inst.isAlivePhi = true ∧ g.HasPhi a d) := by
  unfold isPresent at hpresent
  simp only [ite_eq_ok, bind_eq_ok, pure_eq_ok, Bool.false_eq_true, and_false, false_or, node_eq_ok,
    Option.isNone_iff_eq_none] at hpresent
  obtain ⟨-, n, hn, hblock, hpresent⟩ := hpresent
  obtain ⟨a, ha⟩ := Option.ne_none_iff_exists'.mp hblock
  refine ⟨n, a, hn, ha, ?_⟩
  obtain hhome | hinitial | hphi := hg.recorded d n a hn ha
  · exact .inr (.inl (hg.mem_insts_iff.mpr hhome))
  · exact .inl hinitial
  obtain ⟨hopcode, halive⟩ | ⟨-, hpresent⟩ := hpresent
  · exact .inr (.inr ⟨hopcode, halive, hphi⟩)
  · obtain hplaced | hinitial := Bool.or_eq_true_iff.mp hpresent
    · obtain ⟨c, hc⟩ := Layout.isPlaced_iff.mp hplaced
      obtain rfl : c = a := by
        have := hg.placed d n c hn hc
        simpa [ha, eq_comm] using this
      exact .inr (.inl (hg.mem_insts_iff.mpr hc))
    · exact .inl (of_decide_eq_true hinitial)

theorem mem_live_of_hasPhi (hb : BlockHolds g b) {n : Node} (hn : g.nodes[d.index]? = some n)
    (halive : n.inst.isAlivePhi = true) (hphi : g.HasPhi b d) : d ∈ g.live b := by
  obtain ⟨ps, hps, -⟩ := hb.phis
  obtain ⟨all, hall, -, rfl⟩ := livePhis_eq_ok.mp hps
  obtain ⟨k, hk, hmem⟩ := hphi
  obtain ⟨k', hk', rfl⟩ := phis_eq_ok.mp hall
  obtain rfl : k = k' := by simpa [hk] using hk'
  refine mem_live_iff.mpr ⟨_, hps, List.mem_filter.mpr ⟨hmem, ?_⟩⟩
  rw [isAlivePhi_eq_ok.mpr ⟨n, hn, halive⟩]
  rfl

theorem mem_front_of_after (hg : g.Located) {is : List InstId} (hd : g.layout.home? d = some b)
    (hafter : g.layout.after d = .ok is) (hu : u ∈ is) (hsplit : g.insts b = front ++ u :: back) : d ∈ front := by
  unfold Layout.after at hafter
  simp only [bind_eq_ok, Layout.home_eq_ok, pure_eq_ok] at hafter
  obtain ⟨c, hc, rfl⟩ := hafter
  obtain rfl : b = c := by simpa [hd] using hc
  have hnodup := hg.sound.nodup b
  have hmem : d ∈ g.layout.insts b := hg.sound.mem_iff.mpr hd
  have hinsts : g.layout.insts b = front ++ u :: back := hsplit
  rw [hinsts] at hnodup hmem hu
  obtain hd | hd := List.mem_append.mp hmem
  · exact hd
  -- Nothing behind `d` is `u` if `d` is not in front of it.
  exfalso
  have hfront : ∀ x ∈ front, (x != d) = true := by
    intro x hx
    rw [bne_iff_ne]
    rintro rfl
    exact (List.nodup_append.mp hnodup).2.2 x hx x hd rfl
  rw [List.dropWhile_append_of_pos hfront] at hu
  have hnodup' := (List.nodup_append.mp hnodup).2.1
  obtain rfl | hne := eq_or_ne u d
  · rw [List.dropWhile_cons_of_neg (by simp), List.drop_one, List.tail_cons] at hu
    exact (List.nodup_cons.mp hnodup').1 hu
  · rw [List.dropWhile_cons_of_pos (by simpa using hne)] at hu
    exact (List.nodup_cons.mp hnodup').1 ((List.dropWhile_suffix _).subset (List.mem_of_mem_drop hu))

theorem dominates_of_instDominates {n m : Node} (hn : g.nodes[d.index]? = some n) (hm : g.nodes[u.index]? = some m)
    (ha : n.block = some a) (hb : m.block = some b) (hne : a ≠ b ∨ n.inst.opcode = .phi)
    (h : g.instDominates d u = .ok true) : g.dominates a b = .ok true := by
  rw [instDominates_eq hn hm ha hb] at h
  split at h
  · split at h
    · cases h
    · exact h
  case isFalse hnot =>
    rwa [if_pos (hne.resolve_right fun hphi => hnot (.inr hphi))] at h

theorem block_of_instDominates {m : Node} (hm : g.nodes[u.index]? = some m) (h : g.instDominates d u = .ok true) :
    m.block ≠ none := by
  intro hnone
  unfold instDominates at h
  simp only [bind_eq_ok, node_eq_ok] at h
  obtain ⟨n, -, m', hm', h⟩ := h
  obtain rfl : m = m' := by simpa [hm] using hm'
  rw [hnone] at h
  cases hn : n.block <;> simp [hn, pure, Except.pure] at h

theorem phi_reads (hg : g.Located) (hapart : g.PhisApart) {k : Nat} {ps : List BlockId} {phi : InstId}
    (hphi : phi ∈ g.live b) (hps : g.preds b = .ok ps) (hk : ps[k]? = some p)
    (harrives : g.inputArrives phi k d = .ok true) :
    ∃ last, g.lastInst p = some last ∧ g.instDominates d last = .ok true := by
  obtain ⟨ps', hps', hmem⟩ := mem_live_iff.mp hphi
  obtain ⟨all, hall, -, rfl⟩ := livePhis_eq_ok.mp hps'
  obtain ⟨hmem, halive⟩ := List.mem_filter.mp hmem
  obtain ⟨n, hn, halive⟩ := isAlivePhi_eq_ok.mp (toOption_eq_some_iff.mp (of_decide_eq_true halive))
  have hopcode : n.inst.opcode = .phi := Inst.opcode_of_isPhi (Inst.isPhi_of_isAlivePhi halive)
  have hhas : g.HasPhi b phi := by
    obtain ⟨k, hk, rfl⟩ := phis_eq_ok.mp hall
    exact ⟨k, hk, hmem⟩
  unfold inputArrives at harrives
  rw [opcode_eq_ok.mpr ⟨n, hn, hopcode⟩, instBlock_eq_ok.mpr ⟨n, hn, rfl⟩] at harrives
  obtain hblock | hblock | ⟨c, hc⟩ := (hg.phis b phi hhas).2 n hn
  · simp only [hblock, bind, Except.bind, ne_eq, not_true, if_false, hps, hk, pure, Except.pure,
      Option.bind_some] at harrives
    cases hlast : g.lastInst p with
    | none => simp [hlast] at harrives
    | some last => exact ⟨last, rfl, by simpa [hlast] using harrives⟩
  · simp [hblock, bind, Except.bind, pure, Except.pure] at harrives
  · exact absurd hopcode (hapart.opcode_ne_phi hg (hg.mem_insts_iff.mpr hc) hn)

section Clean

variable (hg : g.Located) (hfresh : g.UpToDate) (hapart : g.PhisApart) (hholds : g.Holds)

include hg hfresh hapart hholds

theorem evaluated_of_instDominates (hpath : g.IsPath (b :: path)) (hb : b ≠ graphEntry)
    (hsplit : g.insts b = front ++ u :: back) {m : Node} (hm : g.nodes[u.index]? = some m) (hmb : m.block = some b)
    (hpresent : g.isPresent d = .ok true) (hdominates : g.instDominates d u = .ok true) :
    d ∈ g.initialDefinitions ∨ d ∈ g.arrived (b :: path) ++ front := by
  have hreach : g.Reachable b := hpath.reachable
  obtain ⟨hall, hexact⟩ := hfresh.exact
  obtain ⟨n, a, hn, ha, hwhere⟩ := hg.cases_present hpresent
  have hdom (hne : a ≠ b ∨ n.inst.opcode = .phi) : g.Dominates a b := by
    obtain ⟨r, hr, hiff⟩ := hexact a b hreach
    exact hiff.mp (by simpa [hr] using dominates_of_instDominates hn hm ha hmb hne hdominates)
  obtain hinitial | hplaced | ⟨hopcode, halive, hphi⟩ := hwhere
  · exact .inl hinitial
  all_goals right
  · have hopcode := hapart.opcode_ne_phi hg hplaced hn
    by_cases hsame : a = b
    · subst hsame
      have hmopcode : m.inst.opcode ≠ .phi := hapart.opcode_ne_phi hg (by rw [hsplit]; simp) hm
      rw [instDominates_eq hn hm ha hmb, if_neg (by simp [hb, hopcode]), if_neg (by simp), if_neg hmopcode,
        bind_eq_ok] at hdominates
      obtain ⟨is, his, hmem⟩ := hdominates
      have hu : u ∈ is := of_decide_eq_true (pure_eq_ok.mp hmem)
      exact List.mem_append_right _ (mem_front_of_after hg (hg.mem_insts_iff.mp hplaced) his hu hsplit)
    · have hon := hdom (.inl hsame) (b :: path) hpath rfl
      rw [List.cons_append, List.mem_cons, List.mem_append, List.mem_singleton] at hon
      refine List.mem_append_left _ ?_
      rw [arrived]
      refine List.mem_append_left _ ?_
      obtain hab | hpath' | hentry := hon
      · exact absurd hab hsame
      · exact mem_arrived_of_mem hpath' (.inl hplaced)
      · exact insts_graphEntry_subset path (hentry ▸ hplaced)
  · have hdom := hdom (.inr hopcode)
    have hlive : d ∈ g.live a :=
      mem_live_of_hasPhi (hholds.blocks a (hall a (hdom.reachable hreach))) hn halive hphi
    have hon := hdom (b :: path) hpath rfl
    rw [List.cons_append, List.mem_cons, List.mem_append, List.mem_singleton] at hon
    refine List.mem_append_left _ ?_
    rw [arrived]
    obtain rfl | hpath' | rfl := hon
    · exact List.mem_append_right _ hlive
    · exact List.mem_append_left _ (mem_arrived_of_mem hpath' (.inr hlive))
    · simp [hapart.entry] at hlive

theorem evaluated_in_entry {m : Node} (hm : g.nodes[u.index]? = some m) (hmb : m.block = some graphEntry)
    (hpresent : g.isPresent d = .ok true) (hdominates : g.instDominates d u = .ok true) :
    d ∈ g.initialDefinitions ∨ d ∈ g.insts graphEntry := by
  obtain ⟨hall, hexact⟩ := hfresh.exact
  obtain ⟨n, a, hn, ha, hwhere⟩ := hg.cases_present hpresent
  have hentry : a = graphEntry := by
    by_contra hne
    obtain ⟨r, hr, hiff⟩ := hexact a graphEntry .refl
    refine hne (dominates_graphEntry_iff.mp (hiff.mp ?_))
    simpa [hr] using dominates_of_instDominates hn hm ha hmb (.inl hne) hdominates
  subst hentry
  obtain hinitial | hplaced | ⟨-, halive, hphi⟩ := hwhere
  · exact .inl hinitial
  · exact .inr hplaced
  · have hlive := mem_live_of_hasPhi (hholds.blocks _ (hall _ .refl)) hn halive hphi
    simp [hapart.entry] at hlive

theorem inputs_defined (hpath : g.IsPath path) (hb : path.headD graphEntry ≠ graphEntry)
    (hsplit : g.insts (path.headD graphEntry) = front ++ i :: back) : ∃ n, g.nodes[i.index]? = some n ∧
      ∀ d ∈ n.inst.args, d ∈ g.initialDefinitions ∨ d ∈ g.arrived path ++ front := by
  cases hpath with
  | nil => exact absurd rfl hb
  | @cons path b hedge hpath =>
    have hi : i ∈ g.insts b := by
      have hsplit : g.insts b = front ++ i :: back := hsplit
      simp [hsplit]
    have hreach : g.Reachable b := (IsPath.cons hedge hpath).reachable
    obtain ⟨last, -, hinsts⟩ := (hholds.blocks b (hfresh.exact.1 b hreach)).insts hb
    obtain ⟨n, hn, hinst⟩ := hinsts i hi
    refine ⟨n, hn, fun d hd => ?_⟩
    obtain ⟨k, hk⟩ := List.mem_iff_getElem?.mp hd
    have hinput := hinst.operands.inputs k d hk
    have harrives := hinput.arrives
    unfold inputArrives at harrives
    rw [opcode_eq_ok.mpr ⟨n, hn, rfl⟩] at harrives
    have hdominates : g.instDominates d i = .ok true := by
      simpa [bind, Except.bind, hapart.opcode_ne_phi hg hi hn] using harrives
    exact evaluated_of_instDominates hg hfresh hapart hholds (.cons hedge hpath) hb hsplit hn hinst.placed
      hinput.present hdominates

theorem edges_defined (hpath : g.IsPath path) (hedge : g.Edge (path.headD graphEntry) b) :
    ∃ ps, g.preds b = .ok ps ∧ path.headD graphEntry ∈ ps ∧ ∀ phi ∈ g.live b, ∃ as, g.args phi = .ok as ∧
      ∀ k : Nat, ps[k]? = some (path.headD graphEntry) → ∃ d, as[k]? = some d ∧
        (d ∈ g.initialDefinitions ∨ d ∈ g.arrived path ++ g.insts (path.headD graphEntry)) := by
  have hall := hfresh.exact.1
  have hp : g.Reachable (path.headD graphEntry) := hpath.reachable
  obtain ⟨ss, hss, hedges⟩ := (hholds.blocks _ (hall _ hp)).edges
  have hb : b ∈ ss := by
    have hnext : b ∈ g.next (path.headD graphEntry) := hedge
    rwa [next_of_ok hss] at hnext
  obtain ⟨ps, hps, hmem⟩ := hedges b hb
  refine ⟨ps, hps, hmem, fun phi hphi => ?_⟩
  obtain ⟨ps', hps', hphis⟩ := (hholds.blocks b (hall b (hp.tail hedge))).phis
  obtain ⟨ps'', hps'', hmem'⟩ := mem_live_iff.mp hphi
  obtain rfl : ps' = ps'' := by simpa [hps'] using hps''
  obtain ⟨⟨as, qs, has, hqs, hlen⟩, n, hn, hoperands⟩ := hphis phi hmem'
  obtain rfl : ps = qs := by simpa [hps] using hqs
  refine ⟨as, has, fun k hk => ?_⟩
  have hlt : k < as.length := hlen ▸ (List.getElem?_eq_some_iff.mp hk).1
  have hd : as[k]? = some as[k] := List.getElem?_eq_getElem hlt
  obtain ⟨n', hn', hargs⟩ := args_eq_ok.mp has
  obtain rfl : n = n' := by simpa [hn] using hn'
  have hinput := hoperands.inputs k as[k] (by rw [hargs, hd])
  refine ⟨as[k], hd, ?_⟩
  obtain ⟨last, hlast, hdominates⟩ := phi_reads hg hapart hphi hps hk hinput.arrives
  have hlastmem : last ∈ g.insts (path.headD graphEntry) := List.mem_of_getLast? hlast
  by_cases hentry : path.headD graphEntry = graphEntry
  · rw [hentry] at hlastmem
    have hhome := hg.mem_insts_iff.mp hlastmem
    obtain ⟨m, hm⟩ : ∃ m, g.nodes[last.index]? = some m := ⟨_, Array.getElem?_eq_getElem (hg.bounded _ _ hhome)⟩
    have hmb : m.block = some graphEntry :=
      (hg.placed last m _ hm hhome).resolve_right (block_of_instDominates hm hdominates)
    refine (evaluated_in_entry hg hfresh hapart hholds hm hmb hinput.present hdominates).imp_right fun h => ?_
    exact insts_graphEntry_subset path h
  · cases hpath with
    | nil => exact absurd rfl hentry
    | @cons path p hedge' hpath =>
      obtain ⟨last', hlast', hinsts⟩ := (hholds.blocks p (hall p hp)).insts hentry
      obtain ⟨m, hm, hinst⟩ := hinsts last hlastmem
      obtain ⟨front, hsplit⟩ := List.getLast?_eq_some_iff.mp hlast
      have hsplit : g.insts p = front ++ last :: [] := hsplit
      refine (evaluated_of_instDominates hg hfresh hapart hholds (.cons hedge' hpath) hentry hsplit hm hinst.placed
        hinput.present hdominates).imp_right fun h => ?_
      rw [List.headD_cons, hsplit]
      obtain h | h := List.mem_append.mp h
      · exact List.mem_append_left _ h
      · exact List.mem_append_right _ (List.mem_append_left _ h)

end Clean

/-- Where the check of an edited graph finds nothing, nothing undefined is read outside the graph entry. -/
theorem consistent_reads_defined (hg : Edited g) (hfresh : g.UpToDate) (hapart : g.PhisApart) (hclean : g.Consistent) :
    g.ReadsDefined (· ≠ graphEntry) where
  inputs _ hpath hb _ _ _ hsplit :=
    inputs_defined hg.located hfresh hapart (consistent_iff.mp hclean) hpath hb hsplit
  edges _ _ hpath hedge := edges_defined hg.located hfresh hapart (consistent_iff.mp hclean) hpath hedge

/-! ## Graphs that are looked at by computation -/

instance : Decidable g.UpToDate :=
  decidable_of_iff
    (((discover >>= fun _ => computeDominators) g).toOption.map (fun r => r.2.orders) = some g.orders) <| by
    rw [Option.map_eq_some_iff]
    constructor
    · rintro ⟨⟨frontier, g'⟩, hrun, horders⟩
      exact ⟨frontier, g', toOption_eq_some_iff.mp hrun, horders⟩
    · rintro ⟨frontier, g', hrun, horders⟩
      exact ⟨(frontier, g'), toOption_eq_some_iff.mpr hrun, horders⟩

instance : Decidable g.Consistent := decidable_of_iff _ consistent_iff_computed.symm

instance : Decidable g.NoPhiPlaced := Nat.decidableBallLT ..

instance : Decidable g.PhisApart :=
  decidable_of_iff (g.NoPhiPlaced ∧ g.live graphEntry = []) ⟨fun h => ⟨h.1, h.2⟩, fun h => ⟨h.placed, h.entry⟩⟩

instance decidableIsPath : (path : List BlockId) → Decidable (g.IsPath path)
  | [] => .isTrue .nil
  | b :: path =>
    have := decidableIsPath path
    decidable_of_iff (b ∈ g.next (path.headD graphEntry) ∧ g.IsPath path)
      ⟨fun h => .cons h.1 h.2, fun | .cons hedge hpath => ⟨hedge, hpath⟩⟩

/-- At the end of the path, instruction `k` of the block reads `d` although it has not been evaluated. -/
def ReadsLate (g : FlowGraph) (path : List BlockId) (k : Nat) (d : InstId) : Prop :=
  g.IsPath path ∧ ∃ i ∈ (g.insts (path.headD graphEntry))[k]?, ∃ n ∈ g.nodes[i.index]?, d ∈ n.inst.args ∧
    d ∉ g.initialDefinitions ∧ d ∉ g.arrived path ++ (g.insts (path.headD graphEntry)).take k

instance {k : Nat} : Decidable (g.ReadsLate path k d) := instDecidableAnd

theorem ReadsLate.not_readsDefined {k : Nat} {checked : BlockId → Prop} (h : g.ReadsLate path k d)
    (hchecked : checked (path.headD graphEntry)) : ¬ g.ReadsDefined checked := by
  intro hreads
  obtain ⟨hpath, i, hi, n, hn, hd, hinitial, hlate⟩ := h
  obtain ⟨hk, rfl⟩ := List.getElem?_eq_some_iff.mp hi
  have hsplit := (List.take_append_drop k (g.insts (path.headD graphEntry))).symm
  rw [List.drop_eq_getElem_cons hk] at hsplit
  obtain ⟨n', hn', hargs⟩ := hreads.inputs path hpath hchecked _ _ _ hsplit
  obtain rfl : n = n' := Option.some_inj.mp (hn.symm.trans hn')
  exact (hargs d hd).elim hinitial hlate

/-- A loop whose phi reads itself through an addition. -/
def countingScript : List Operation :=
  [.addBlock .join, .addBlock .target, .addBlock .target,
    .buildAt ⟨1⟩ (.constant (.smi 0)), .buildAt ⟨1⟩ (.goto ⟨2⟩), .addPhi ⟨2⟩ none 2,
    .buildAt ⟨2⟩ (.smiOp .add ⟨2⟩ ⟨0⟩), .buildAt ⟨2⟩ (.branch (.strict .eqStrict ⟨2⟩ ⟨3⟩) ⟨3⟩ ⟨4⟩),
    .writeInst ⟨2⟩ (.phi none [⟨0⟩, ⟨3⟩] true .tagged) none none none false,
    .buildAt ⟨3⟩ (.goto ⟨2⟩), .buildAt ⟨4⟩ (.unary .ret ⟨2⟩), .discover, .computeDominators, .computeUseLists]

theorem counting_reads_defined : ∃ g, (Edited g ∧ g.UpToDate ∧ g.PhisApart ∧ g.Consistent) ∧
    (g.IsPath [⟨2⟩, ⟨3⟩, ⟨2⟩, ⟨1⟩] ∧ g.live ⟨2⟩ = [⟨2⟩]) ∧ g.ReadsDefined (· ≠ graphEntry) := by
  have hcompute : ((Operation.script countingScript (FlowGraph.new "f" 0 0)).map fun g => decide
      ((g.UpToDate ∧ g.PhisApart ∧ g.Consistent) ∧ g.IsPath [⟨2⟩, ⟨3⟩, ⟨2⟩, ⟨1⟩] ∧ g.live ⟨2⟩ = [⟨2⟩])) =
        some true := by decide +kernel
  obtain ⟨g, hg, ⟨hfresh, hapart, hclean⟩, hloop⟩ := Edited.start.exists_script hcompute
  exact ⟨g, ⟨hg, hfresh, hapart, hclean⟩, hloop, consistent_reads_defined hg hfresh hapart hclean⟩

/-- The graph entry tests a value that the normal entry defines. -/
def earlyTest : List Operation :=
  [.buildAt ⟨1⟩ (.constant (.smi 1)), .buildAt ⟨1⟩ (.unary .ret ⟨0⟩), .addInst (.unary .checkSmi ⟨0⟩),
    .append ⟨0⟩ ⟨2⟩, .discover, .computeDominators, .computeUseLists]

/-- The value returned is a phi of the graph entry. -/
def entryPhi : List Operation :=
  [.addPhi ⟨0⟩ none 0, .insertPhi ⟨0⟩, .buildAt ⟨1⟩ (.unary .ret ⟨0⟩), .discover, .computeDominators,
    .computeUseLists]

/-- A phi placed like other instructions behind a branch, which reads what one of the two sides defines. -/
def placedPhi : List Operation :=
  [.addBlock .target, .addBlock .target, .addBlock .join, .buildAt ⟨1⟩ (.constant (.smi 1)),
    .buildAt ⟨1⟩ (.branch (.strict .eqStrict ⟨0⟩ ⟨0⟩) ⟨2⟩ ⟨3⟩), .buildAt ⟨2⟩ (.constant (.smi 2)),
    .buildAt ⟨2⟩ (.goto ⟨4⟩), .buildAt ⟨3⟩ (.goto ⟨4⟩), .buildAt ⟨4⟩ (.unary .phi ⟨2⟩),
    .buildAt ⟨4⟩ (.unary .ret ⟨0⟩), .discover, .computeDominators, .computeUseLists]

/-- The check does not see reads in the graph entry, nor those that phis out of their place lead to. -/
theorem consistent_misses_reads :
    (∃ g, Edited g ∧ g.UpToDate ∧ g.Consistent ∧ g.PhisApart ∧ ¬ g.ReadsDefined fun _ => True) ∧
      (∃ g, Edited g ∧ g.UpToDate ∧ g.Consistent ∧ g.NoPhiPlaced ∧ ¬ g.ReadsDefined (· ≠ graphEntry)) ∧
      ∃ g, Edited g ∧ g.UpToDate ∧ g.Consistent ∧ g.live graphEntry = [] ∧ ¬ g.ReadsDefined (· ≠ graphEntry) := by
  have hearly : ((Operation.script earlyTest (FlowGraph.new "f" 0 0)).map fun g => decide
      (g.UpToDate ∧ g.Consistent ∧ g.PhisApart ∧ g.ReadsLate [] 0 ⟨0⟩)) = some true := by decide +kernel
  have hentry : ((Operation.script entryPhi (FlowGraph.new "f" 0 0)).map fun g => decide
      (g.UpToDate ∧ g.Consistent ∧ g.NoPhiPlaced ∧ g.ReadsLate [⟨1⟩] 0 ⟨0⟩)) = some true := by decide +kernel
  have hplaced : ((Operation.script placedPhi (FlowGraph.new "f" 0 0)).map fun g => decide
      (g.UpToDate ∧ g.Consistent ∧ g.live graphEntry = [] ∧ g.ReadsLate [⟨4⟩, ⟨3⟩, ⟨1⟩] 0 ⟨2⟩)) =
        some true := by decide +kernel
  refine ⟨?_, ?_, ?_⟩
  · obtain ⟨g, hg, hfresh, hclean, hapart, hlate⟩ := Edited.start.exists_script hearly
    exact ⟨g, hg, hfresh, hclean, hapart, hlate.not_readsDefined trivial⟩
  · obtain ⟨g, hg, hfresh, hclean, hplaced, hlate⟩ := Edited.start.exists_script hentry
    exact ⟨g, hg, hfresh, hclean, hplaced, hlate.not_readsDefined (by decide)⟩
  · obtain ⟨g, hg, hfresh, hclean, hlive, hlate⟩ := Edited.start.exists_script hplaced
    exact ⟨g, hg, hfresh, hclean, hlive, hlate.not_readsDefined (by decide)⟩

end FlowGraph

end Midend
