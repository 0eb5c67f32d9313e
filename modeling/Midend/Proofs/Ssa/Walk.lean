import Midend.Proofs.Ssa.Renaming

/-! # The walk down the tree

A block runs its instructions from the frame at the end of its dominator and hands its own frame on, to the
blocks right below and to the phis that its goto leads to. Every block of the tree is renamed once.
-/

namespace Midend.Ssa

open Midend.Flow

/-! ## The instructions of a block -/

/-- The instructions take the frame from one end to the other. -/
inductive Runs (r g₀ : FlowGraph) (s : Names) (g : FlowGraph) : List InstId → Frame → Frame → Prop
  | nil (f : Frame) : Runs r g₀ s g [] f f
  | cons {i : InstId} {is : List InstId} {f f' f'' : Frame} (hstep : Step r g₀ s g i f f')
      (hruns : Runs r g₀ s g is f' f'') : Runs r g₀ s g (i :: is) f f''

def phisOf (g : FlowGraph) (b : BlockId) : List InstId := ((g.blocks[b.index]?).map Block.phis).getD []

def slotOf (g : FlowGraph) (phi : InstId) : Nat :=
  match (g.nodes[phi.index]?).map Node.inst with
  | some (.phi (some slot) ..) => slot
  | _ => 0

/-- The frame with each phi in the slot of its variable. -/
def enter (g₀ : FlowGraph) (phis : List InstId) (f : Frame) : Frame :=
  phis.foldl (fun f phi => f.set (slotOf g₀ phi) phi) f

def inputOf (g : FlowGraph) (i : InstId) (j : Nat) : Option InstId :=
  (g.nodes[i.index]?).bind fun n => n.inst.args[j]?

/-- The phis behind `b` read what the frame `f` at its end holds. -/
def Filled (t : Tour) (g₀ g : FlowGraph) (b : BlockId) (f : Frame) : Prop :=
  ∀ c phi j, phi ∈ phisOf g₀ c → (t.preds c)[j]? = some b →
    ∃ v, f[slotOf g₀ phi]? = some v ∧ inputOf g phi j = some v

section Blocks

variable {r g₀ g g' : FlowGraph} {t : Tour} {H : List InstId} {s s' : Names} {b c : BlockId} {f f' : Frame}
  {is : List InstId}

theorem Runs.later (h : Runs r g₀ s g is f f') (hl : Later H s g s' g') (his : ∀ i ∈ is, i ∈ H) :
    Runs r g₀ s' g' is f f' := by
  induction h with
  | nil f => exact .nil f
  | cons hstep _ ih =>
    rw [List.forall_mem_cons] at his
    exact .cons (hstep.later hl his.1) (ih his.2)

theorem renames_renameInsts (h : Base r t g₀) (hp : Progress r g₀ H g) (hk : Known r H s g) (hnodup : is.Nodup)
    (hnew : ∀ i ∈ is, i ∉ H) (hbuilt : ∀ i ∈ is, i.index < r.nodes.size) (hf : Sized r g₀ f) :
    Renames False (fun _ => True) g s (is.foldlM (renameInst b) f) fun f' s' g' =>
    Advances r g₀ H (is.reverse ++ H) s g s' g' ∧
      Sized r g₀ f' ∧ Runs r g₀ s' g' is f f' := by
  induction is generalizing H s g f with
  | nil => exact ⟨⟨hp, hk, .refl H s g, .refl g⟩, hf, .nil f⟩
  | cons i is ih =>
    rw [List.nodup_cons] at hnodup
    rw [List.forall_mem_cons] at hnew hbuilt
    rw [List.foldlM_cons, Renames.bind_iff]
    refine (renames_renameInst h hp hnew.1 hk (Array.getElem?_eq_getElem hbuilt.1) hf).mono ?_
    rintro f₁ s₁ g₁ ⟨hadv, hf₁, hstep⟩
    have hnew₁ : ∀ j ∈ is, j ∉ i :: H := by
      intro j hj hmem
      obtain rfl | hmem := List.mem_cons.mp hmem
      · exact hnodup.1 hj
      · exact hnew.2 j hj hmem
    refine (ih hadv.progress hadv.known hnodup.2 hnew₁ hbuilt.2 hf₁).mono ?_
    rintro f' s' g' ⟨hadv', hf', hruns⟩
    rw [List.reverse_cons, List.append_assoc, List.singleton_append]
    refine ⟨hadv.trans hadv' (List.subset_cons_self i H), hf', .cons ?_ hruns⟩
    exact hstep.later hadv'.later List.mem_cons_self

theorem mem_insts_iff (h : Base r t g₀) (hp : Progress r g₀ H g) {i : InstId} :
    i ∈ g.insts b ↔ i ∈ r.insts b ∧ g.layout.home? i ≠ none := by
  constructor
  · intro hi
    refine ⟨(hp.sub b).subset hi, ?_⟩
    rw [hp.layout.mem_iff.mp hi]
    exact Option.some_ne_none b
  · rintro ⟨hi, hplaced⟩
    obtain ⟨c, hc⟩ := Option.ne_none_iff_exists'.mp hplaced
    have hmem : i ∈ g.insts c := hp.layout.mem_iff.mpr hc
    have hhome := h.raw.layout.mem_iff.mp hi
    have hhome' := h.raw.layout.mem_iff.mp ((hp.sub c).subset hmem)
    obtain rfl : b = c := by simpa [hhome] using hhome'
    exact hmem

theorem insts_eq (h : Base r t g₀) (hp : Progress r g₀ H g) (hnew : ∀ i ∈ r.insts b, i ∉ H) :
    g.insts b = r.insts b := by
  refine (hp.sub b).eq_of_length_le ?_
  refine ((List.subperm_of_subset (h.raw.layout.nodup b) fun i hi => ?_).length_le)
  obtain ⟨n, hn⟩ := h.raw.exists_node hi
  exact (mem_insts_iff h hp).mpr ⟨hi, fun hnone => hnew i hi (hp.gone i n hn hnone).1⟩

theorem lastInst_eq (h : Base r t g₀) (hp : Progress r g₀ H g) {i : InstId} {n : Node} (hlast : r.lastInst b = some i)
    (hn : r.nodes[i.index]? = some n) (hlocal : n.inst.isLocal = false) : g.lastInst b = some i := by
  obtain ⟨front, hfront⟩ := List.getLast?_eq_some_iff.mp (show (r.insts b).getLast? = some i from hlast)
  have hi : i ∈ r.insts b := by simp [hfront]
  have hmem : i ∈ g.insts b := by
    refine (mem_insts_iff h hp).mpr ⟨hi, fun hnone => ?_⟩
    simpa [hlocal] using (hp.gone i n hn hnone).2
  have hsub : (g.insts b).Sublist (front ++ [i]) := hfront ▸ hp.sub b
  obtain ⟨xs, ys, hxy, hxs, hys⟩ := List.sublist_append_iff.mp hsub
  have hnodup : (front ++ [i]).Nodup := hfront ▸ h.raw.layout.nodup b
  have hfresh : i ∉ front := fun hmem => (List.nodup_append.mp hnodup).2.2 i hmem i List.mem_cons_self rfl
  obtain rfl | rfl := List.sublist_singleton.mp hys
  · rw [hxy, List.append_nil] at hmem
    exact absurd (hxs.subset hmem) hfresh
  · show (g.insts b).getLast? = some i
    rw [hxy, List.getLast?_append]
    rfl

/-! ## Entering and leaving a block -/

theorem phisOf_eq {k : Block} (hk : g.blocks[b.index]? = some k) : phisOf g b = k.phis := by simp [phisOf, hk]

theorem exists_of_mem_phisOf {phi : InstId} (hphi : phi ∈ phisOf g b) :
    ∃ k, g.blocks[b.index]? = some k ∧ phi ∈ k.phis := by
  unfold phisOf at hphi
  cases hk : g.blocks[b.index]? with
  | none => simp [hk] at hphi
  | some k => exact ⟨k, rfl, by simpa [hk] using hphi⟩

theorem Base.phi_of_mem (h : Base r t g₀) {phi : InstId} (hphi : phi ∈ phisOf g₀ b) :
    r.nodes.size ≤ phi.index ∧ b ∈ t.preorder ∧ (t.blocks[b.index]?).map Block.kind = some .join ∧
      slotOf g₀ phi < r.parameterCount + r.localCount ∧
      g₀.nodes[phi.index]? = some (phiNode t b (slotOf g₀ phi)) := by
  obtain ⟨k, hk, hmem⟩ := exists_of_mem_phisOf hphi
  obtain ⟨hnew, hb, hjoin, v, hv, hnode⟩ := h.phi b k hk phi hmem
  have hslot : slotOf g₀ phi = v := by simp [slotOf, hnode, phiNode]
  rw [hslot]
  exact ⟨hnew, hb, hjoin, hv, hnode⟩

theorem phiSlot_eq (h : Base r t g₀) (hp : Progress r g₀ H g) {phi : InstId} (hphi : phi ∈ phisOf g₀ b) :
    phiSlot g phi = .ok (slotOf g₀ phi) := by
  obtain ⟨-, -, -, -, hnode⟩ := h.phi_of_mem hphi
  obtain ⟨n, hn, hev⟩ := hp.nodes phi _ hnode
  obtain ⟨as, alive, hinst⟩ := hev.phi rfl
  unfold phiSlot
  rw [FlowGraph.inst_eq_ok.mpr ⟨n, hn, hinst⟩]
  rfl

theorem renames_enterPhis (h : Base r t g₀) (hp : Progress r g₀ H g) (hk : Known r H s g) {phis : List InstId}
    (hphis : ∀ phi ∈ phis, phi ∈ phisOf g₀ b) (hf : Sized r g₀ f) :
    Renames False (fun _ => True) g s (phis.foldlM enterPhi f) fun f' s' g' => s = s' ∧ f' = enter g₀ phis f ∧
    Sized r g₀ f' ∧
      Advances r g₀ H H s g s g' ∧ ∀ phi ∈ phis, g'.Indexed phi := by
  induction phis generalizing g f with
  | nil => exact ⟨rfl, rfl, hf, ⟨hp, hk, .refl H s g, .refl g⟩, List.forall_mem_nil _⟩
  | cons phi phis ih =>
    rw [List.forall_mem_cons] at hphis
    obtain ⟨hnew, -, -, hslot, hnode⟩ := h.phi_of_mem hphis.1
    have hlt : phi.index < g₀.nodes.size := (Array.getElem?_eq_some_iff.mp hnode).1
    have hfits : slotOf g₀ phi < f.length := Nat.lt_of_lt_of_le hslot hf.room
    rw [List.foldlM_cons, Renames.bind_iff]
    unfold enterPhi
    rw [Renames.bind_iff, Renames.getThe_iff, Renames.bind_iff, Renames.read_iff, phiSlot_eq h hp hphis.1,
      Yields.ok_iff, Renames.bind_iff, Renames.read_iff, setSlot, if_pos hfits, Yields.ok_iff, Renames.bind_iff,
      Renames.discard_iff, Renames.lift_iff, Leads.allocSsaIndex_iff]
    refine ⟨fun _ => ?_, fun hle => absurd (hp.size ▸ hlt) (Nat.not_lt.mpr hle)⟩
    rw [Renames.pure_iff]
    have hadv : Advances r g₀ H H s g s (g.numbered phi) :=
      ⟨hp.numbered (.inr hnew), ⟨hk.handled, hk.resolved, fun j => by rw [aliveIn_numbered, hk.live]⟩,
        .numbered s g phi, .numbered⟩
    refine (ih hadv.progress hadv.known hphis.2 (hf.set hlt _)).mono ?_
    rintro f' _ g' ⟨rfl, rfl, hf', hadv', hindexed⟩
    refine ⟨rfl, rfl, hf', hadv.trans hadv' (List.Subset.refl H), List.forall_mem_cons.mpr ⟨?_, hindexed⟩⟩
    exact hadv'.later.names.indexed phi (FlowGraph.indexed_numbered (hp.size ▸ hlt))

theorem inputOf_setArg {phi : InstId} {n : Node} (hn : g.nodes[phi.index]? = some n) {k : Nat}
    (hk : k < n.inst.args.length) (v i : InstId) (j : Nat) :
    inputOf (g.withNode phi fun n => { n with inst := n.inst.setArg k v }) i j =
      if i = phi ∧ j = k then some v else inputOf g i j := by
  unfold inputOf
  rw [FlowGraph.nodes_withNode]
  by_cases hi : i = phi
  · subst hi
    rw [hn]
    simp only [Option.map_some, Option.bind_some, if_true, Inst.setArg_eq, Inst.args_mapArgs, List.getElem?_mapIdx,
      true_and]
    by_cases hj : j = k
    · subst hj
      simp [List.getElem?_eq_getElem hk]
    · simp [hj]
  · simp [hi]

theorem leads_fillPhis (h : Base r t g₀) (hp : Progress r g₀ H g) (hk : Known r H s g) {k : Nat} {phis : List InstId}
    (hphis : ∀ phi ∈ phis, phi ∈ phisOf g₀ c) (hpos : k < (t.preds c).length) (hf : Sized r g₀ f) :
    Renames False (fun _ => True) g s (phis.forM fun phi => do
      let v ← itemAt f (← phiSlot g phi)
      Edit.setArgQuietly phi k v) fun _ s' g' => s = s' ∧ Progress r g₀ H g' ∧ Known r H s g' ∧ Later H s g s g' ∧
        ∀ i j, inputOf g' i j = if i ∈ phis ∧ j = k then f[slotOf g₀ i]? else inputOf g i j := by
  refine (Renames.stepwise.forM (s := (s, g)) (fun done w => s = w.1 ∧ Progress r g₀ H w.2 ∧ Known r H s w.2 ∧
    Later H s g s w.2 ∧ ∀ i j, inputOf w.2 i j = if i ∈ done ∧ j = k then f[slotOf g₀ i]? else inputOf g i j)
    ⟨rfl, hp, hk, .refl H s g, by simp⟩ ?_).mono fun _ _ _ h => h
  rintro done phi rest ⟨_, g₁⟩ hsplit ⟨rfl, hp₁, hk₁, hlater, hinputs⟩
  simp only at hp₁ hk₁ hlater hinputs
  have hmem : phi ∈ phisOf g₀ c := hphis phi (by simp [hsplit])
  obtain ⟨hnew, -, -, hslot, hnode⟩ := h.phi_of_mem hmem
  have hlt : slotOf g₀ phi < f.length := Nat.lt_of_lt_of_le hslot hf.room
  have hget : f[slotOf g₀ phi]? = some f[slotOf g₀ phi] := List.getElem?_eq_getElem hlt
  obtain ⟨n, hn, hev⟩ := hp₁.nodes phi _ hnode
  have hkn : k < n.inst.args.length := by
    rw [hev.length_args]
    simpa [phiNode, Inst.args] using hpos
  have hfresh : phi ∉ H := fun hmem => absurd (hk.handled phi hmem) (Nat.not_lt.mpr hnew)
  rw [Renames.bind_iff, Renames.read_iff, phiSlot_eq h hp hmem, Yields.ok_iff, Renames.bind_iff, Renames.read_iff,
    itemAt, hget, orFault, Yields.ok_iff, Renames.lift_iff, Leads.setArgQuietly_iff]
  refine ⟨fun _ _ _ => ?_, fun hle => absurd hkn (Nat.not_lt.mpr (hle n hn))⟩
  have hlife (j : InstId) : aliveIn (g₁.withNode phi fun n => { n with inst := n.inst.setArg k f[slotOf g₀ phi] }) j =
      aliveIn g₁ j := aliveIn_withNode (fun n _ => by simp [Inst.setArg_eq]) j
  refine ⟨rfl, hp₁.withNode (.inr hnew) fun n _ =>
      ⟨⟨⟨_, .inl (Inst.setArg_eq k _)⟩, rfl, rfl, rfl, rfl⟩, rfl, fun _ => rfl⟩,
    ⟨hk₁.handled, hk₁.resolved, fun j => by rw [hlife, hk₁.live]⟩,
    hlater.trans (.withNode hfresh (fun j hj => (hlife j).trans hj) fun _ => rfl), fun i j => ?_⟩
  rw [inputOf_setArg hn hkn, hinputs]
  by_cases hi : i = phi
  · subst hi
    by_cases hj : j = k <;> simp [hj, hget]
  · simp [hi]

theorem renames_fillPhis (h : Base r t g₀) (hp : Progress r g₀ H g) (hk : Known r H s g) (hb : b ∈ t.preorder)
    (hne : b ≠ FlowGraph.graphEntry) (hf : Sized r g₀ f) :
    Renames False (fun _ => True) g s (fillPhis b f) fun _ s' g' => s = s' ∧ Progress r g₀ H g' ∧ Known r H s g' ∧
    Later H s g s g' ∧
      Filled t g₀ g' b f ∧ ∀ c f', c ≠ b → Filled t g₀ g c f' → Filled t g₀ g' c f' := by
  obtain ⟨i, n, hlast, hn, hterm, -⟩ := h.split b hb hne
  have hlocal : n.inst.isLocal = false := Inst.isLocal_of_isTerminator hterm
  obtain ⟨m, hm, hev⟩ := hp.nodes i n (h.old i n hn)
  obtain ⟨e, hinst⟩ := hev.inst_of_not_isPhi (h.isPhi_of_raw hn)
  -- Only a goto leads to a block with phis.
  have hgoto : ∀ (c : BlockId) (phi : InstId) (j : Nat), phi ∈ phisOf g₀ c → (t.preds c)[j]? = some b →
      n.inst = .goto c := by
    intro c phi j hphi hj
    obtain ⟨-, -, hjoin, -⟩ := h.phi_of_mem hphi
    obtain ⟨-, i', n', hlast', hn', hinst'⟩ :=
      goto_of_mem_preds h.raw h.catchEntries h.touring h.split hjoin (List.mem_of_getElem? hj)
    obtain rfl : i = i' := by simpa [hlast] using hlast'
    obtain rfl : n = n' := by simpa [hn] using hn'
    exact hinst'
  unfold fillPhis
  rw [Renames.bind_iff, Renames.getThe_iff, lastInst_eq h hp hlast hn hlocal]
  simp only
  rw [Renames.bind_iff, Renames.read_iff, FlowGraph.inst_eq_ok.mpr ⟨m, hm, hinst⟩, Yields.ok_iff]
  split
  case h_1 c hc =>
    have hc : n.inst = .goto c := by cases hd : n.inst <;> simp_all [Inst.mapArgs]
    have hnext : c ∈ r.next b := by
      rw [Raw.next_of_last hne hlast hn, hc]
      exact List.mem_singleton_self c
    have hcmem : c ∈ t.preorder := h.touring.mem_of_edge hb hnext
    have hpred : b ∈ t.preds c := h.touring.mem_preds_iff.mpr ⟨hb, hnext⟩
    obtain ⟨k, hk'⟩ := h.exists_block hcmem
    have hblock : g.blocks[c.index]? = some k := by rw [hp.outline.blocks, hk']
    obtain ⟨hpreds, -, -⟩ := h.block c k hk' hcmem
    have hindex : g.predIndex c b = .ok ((t.preds c).findIdx? (· == b)) := by
      unfold FlowGraph.predIndex
      rw [FlowGraph.preds_eq_ok.mpr ⟨k, hblock, hpreds⟩]
      rfl
    rw [Renames.bind_iff, Renames.read_iff, hindex, Yields.ok_iff]
    cases hidx : (t.preds c).findIdx? (· == b) with
    | none => simp
    | some pos =>
      obtain ⟨hpos, hat, -⟩ := List.findIdx?_eq_some_iff_getElem.mp hidx
      have hat : (t.preds c)[pos]? = some b := by rw [List.getElem?_eq_getElem hpos, beq_iff_eq.mp hat]
      rw [Renames.bind_iff, Renames.read_iff, FlowGraph.phis_eq_ok.mpr ⟨k, hblock, rfl⟩, Yields.ok_iff,
        ← phisOf_eq hk']
      refine (leads_fillPhis h hp hk (fun _ hphi => hphi) hpos hf).mono ?_
      rintro _ _ g' ⟨rfl, hp', hk'', hlater, hinputs⟩
      refine ⟨rfl, hp', hk'', hlater, ?_, ?_⟩
      · intro c' phi j hphi hj
        obtain rfl : c = c' := by simpa [hc] using hgoto c' phi j hphi hj
        obtain ⟨-, -, hjoin, hslot, -⟩ := h.phi_of_mem hphi
        have hnodup := nodup_preds h.raw h.catchEntries h.touring h.split hjoin
        obtain rfl : j = pos := ((List.getElem?_inj hpos hnodup).mp (hat.trans hj.symm)).symm
        refine ⟨_, List.getElem?_eq_getElem (Nat.lt_of_lt_of_le hslot hf.room), ?_⟩
        rw [hinputs, if_pos ⟨hphi, rfl⟩, List.getElem?_eq_getElem]
      · intro c' f' hc' hfilled c₁ phi j hphi hj
        obtain ⟨v, hv, hinput⟩ := hfilled c₁ phi j hphi hj
        refine ⟨v, hv, ?_⟩
        rw [hinputs, if_neg, hinput]
        rintro ⟨hphi', rfl⟩
        have hsame : c = c₁ := by
          have hnode := (h.phi_of_mem hphi).2.2.2.2
          rw [(h.phi_of_mem hphi').2.2.2.2] at hnode
          simpa [phiNode] using congrArg (fun n => n.map Node.block) hnode
        rw [← hsame, hat] at hj
        exact hc' (Option.some_inj.mp hj).symm
  case h_2 hother =>
    have hnone : ∀ (c : BlockId) (phi : InstId) (j : Nat), phi ∈ phisOf g₀ c → (t.preds c)[j]? ≠ some b :=
      fun c phi j hphi hj => hother c (by rw [hgoto c phi j hphi hj]; rfl)
    rw [Renames.pure_iff]
    exact ⟨rfl, hp, hk, .refl H s g, fun c phi j hphi hj => absurd hj (hnone c phi j hphi), fun _ _ _ h => h⟩

theorem Filled.sameInputs (hfilled : Filled t g₀ g b f) (h : Base r t g₀) (hp : Progress r g₀ H g)
    (hsame : SameInputs g g') : Filled t g₀ g' b f := by
  intro c phi j hphi hj
  obtain ⟨v, hv, hinput⟩ := hfilled c phi j hphi hj
  obtain ⟨-, -, -, -, hnode⟩ := h.phi_of_mem hphi
  obtain ⟨n, hn, hev⟩ := hp.nodes phi _ hnode
  obtain ⟨n', hn', -, hargs⟩ := hsame phi n hn (hev.isPhi.trans rfl)
  refine ⟨v, hv, ?_⟩
  rw [inputOf, hn] at hinput
  rw [inputOf, hn', Option.bind_some, hargs]
  exact hinput

/-- The block `b` has been renamed from the frame `f`, with `f'` at its end. -/
structure Renamed (r : FlowGraph) (t : Tour) (g₀ : FlowGraph) (s : Names) (g : FlowGraph) (b : BlockId) (f f' : Frame) :
    Prop where
  sized : Sized r g₀ f'
  runs : Runs r g₀ s g (r.insts b) (enter g₀ (phisOf g₀ b) f) f'
  filled : Filled t g₀ g b f'
  indexed : ∀ phi ∈ phisOf g₀ b, g.Indexed phi

theorem renames_renameBlock (h : Base r t g₀) (hp : Progress r g₀ H g) (hk : Known r H s g) (hb : b ∈ t.preorder)
    (hne : b ≠ FlowGraph.graphEntry) (hnew : ∀ i ∈ r.insts b, i ∉ H) (hf : Sized r g₀ f) :
    Renames False (fun _ => True) g s (renameBlock b f) fun f' s' g' => Progress r g₀ ((r.insts b).reverse ++ H) g' ∧
      Known r ((r.insts b).reverse ++ H) s' g' ∧ Later H s g s' g' ∧ Renamed r t g₀ s' g' b f f' ∧
      ∀ c f', c ≠ b → Filled t g₀ g c f' → Filled t g₀ g' c f' := by
  obtain ⟨k, hk₀⟩ := h.exists_block hb
  have hblock : g.blocks[b.index]? = some k := by rw [hp.outline.blocks, hk₀]
  unfold renameBlock
  rw [Renames.bind_iff, Renames.getThe_iff, Renames.bind_iff, Renames.read_iff,
    FlowGraph.phis_eq_ok.mpr ⟨k, hblock, rfl⟩, Yields.ok_iff, Renames.bind_iff, ← phisOf_eq hk₀]
  refine (renames_enterPhis h hp hk (fun _ hphi => hphi) hf).mono ?_
  rintro f₁ _ g₁ ⟨rfl, rfl, hf₁, hadv₁, hindexed⟩
  rw [Renames.bind_iff, Renames.getThe_iff, Renames.bind_iff, insts_eq h hadv₁.progress hnew]
  have hbuilt : ∀ i ∈ r.insts b, i.index < r.nodes.size := fun i hi =>
    h.raw.placed i b (h.raw.layout.mem_iff.mp hi)
  refine (renames_renameInsts h hadv₁.progress hadv₁.known (h.raw.layout.nodup b) hnew hbuilt hf₁).mono ?_
  rintro f₂ s₂ g₂ ⟨hadv₂, hf₂, hruns⟩
  rw [Renames.bind_iff]
  refine (renames_fillPhis h hadv₂.progress hadv₂.known hb hne hf₂).mono ?_
  rintro _ _ g₃ ⟨rfl, hp₃, hk₃, hlater, hfilled, hothers⟩
  rw [Renames.pure_iff]
  have hsub : H ⊆ (r.insts b).reverse ++ H := List.subset_append_right _ _
  have hadv := hadv₁.trans hadv₂ (List.Subset.refl H)
  refine ⟨hp₃, hk₃, hadv.later.trans (hlater.anti hsub), ⟨hf₂, hruns.later hlater fun i hi => ?_, hfilled,
    fun phi hphi => (hadv₂.later.names.trans hlater.names).indexed phi (hindexed phi hphi)⟩,
    fun c f' hc hc' => hothers c f' hc (hc'.sameInputs h hp hadv.inputs)⟩
  simp [hi]

end Blocks

/-! ## The whole tree -/

/-- The frame that a block starts from: the one at the entry, or the one at the end of its dominator. -/
def Enters (t : Tour) (init : Frame) (outs : List (BlockId × Frame)) (b : BlockId) (f : Frame) : Prop :=
  (b = FlowGraph.normalEntry ∧ f = init) ∨ (b ≠ FlowGraph.normalEntry ∧ ∃ d, t.idom? b = some d ∧ (d, f) ∈ outs)

/-- The blocks of `outs` have been renamed, with the frames at their ends, and those of `stack` wait for it. -/
structure Walked (r : FlowGraph) (t : Tour) (g₀ : FlowGraph) (init : Frame) (s : Names) (g : FlowGraph)
    (outs stack : List (BlockId × Frame)) : Prop where
  progress : Progress r g₀ (outs.flatMap fun o => r.insts o.1) g
  known : Known r (outs.flatMap fun o => r.insts o.1) s g
  nodup : ((outs ++ stack).map Prod.fst).Nodup
  visited : ∀ o ∈ outs ++ stack, o.1 ∈ t.preorder ∧ o.1 ≠ FlowGraph.graphEntry
  done : ∀ o ∈ outs, ∃ f, Enters t init outs o.1 f ∧ Renamed r t g₀ s g o.1 f o.2
  pending : ∀ o ∈ stack, Sized r g₀ o.2 ∧ Enters t init outs o.1 o.2
  below : ∀ b d, t.idom? b = some d → d ∈ outs.map Prod.fst → b ∈ (outs ++ stack).map Prod.fst
  first : FlowGraph.normalEntry ∈ (outs ++ stack).map Prod.fst
  names : g₀.KeepsNames g

section Tree

variable {r g₀ g g' : FlowGraph} {t : Tour} {init f f' : Frame} {s s' : Names} {outs stack : List (BlockId × Frame)}
  {b c : BlockId}

theorem Enters.cons (h : Enters t init outs b f) (o : BlockId × Frame) : Enters t init (o :: outs) b f :=
  h.imp_right fun ⟨hne, d, hd, hmem⟩ => ⟨hne, d, hd, List.mem_cons_of_mem o hmem⟩

theorem Enters.not_child (h : Base r t g₀) (henters : Enters t init outs c f) (hb : b ∉ outs.map Prod.fst)
    (hne : b ≠ FlowGraph.graphEntry) : t.idom? c ≠ some b := by
  intro hc
  obtain ⟨rfl, -⟩ | ⟨-, d, hd, hmem⟩ := henters
  · rw [h.touring.idom?_normalEntry h.catchEntries, Option.some_inj] at hc
    exact hne hc.symm
  · obtain rfl : d = b := by simpa [hd] using hc
    exact hb (List.mem_map_of_mem hmem)

theorem Walked.step (h : Base r t g₀) (hw : Walked r t g₀ init s g outs ((b, f) :: stack)) :
    Renames False (fun _ => True) g s (renameBlock b f) fun f' s' g' =>
      Walked r t g₀ init s' g' ((b, f') :: outs) ((t.children b).map (·, f') ++ stack) := by
  obtain ⟨hb, hne⟩ := hw.visited (b, f) (by simp)
  obtain ⟨hf, henters⟩ := hw.pending (b, f) List.mem_cons_self
  have hnodup := hw.nodup
  simp only [List.map_append, List.map_cons, List.nodup_append, List.nodup_cons, List.mem_cons] at hnodup
  obtain ⟨hdone, ⟨hbstack, hstack⟩, hdisjoint⟩ := hnodup
  have hbnew : b ∉ outs.map Prod.fst := fun hmem => hdisjoint b hmem b (.inl rfl) rfl
  have hnew : ∀ i ∈ r.insts b, i ∉ outs.flatMap fun o => r.insts o.1 := by
    intro i hi hmem
    obtain ⟨o, ho, hio⟩ := List.mem_flatMap.mp hmem
    have hhome := h.raw.layout.mem_iff.mp hi
    rw [h.raw.layout.mem_iff.mp hio, Option.some_inj] at hhome
    exact hbnew (hhome ▸ List.mem_map_of_mem ho)
  refine (renames_renameBlock h hw.progress hw.known hb hne hnew hf).mono ?_
  rintro f' s' g' ⟨hp, hk, hlater, hrenamed, hothers⟩
  have hsame (x : InstId) : x ∈ (r.insts b).reverse ++ (outs.flatMap fun o => r.insts o.1) ↔
      x ∈ ((b, f') :: outs).flatMap fun o => r.insts o.1 := by simp
  have hchild (c : BlockId) : c ∈ t.children b ↔ c ∈ t.preorder ∧ t.idom? c = some b := by simp [Tour.children]
  have hbchild : b ∉ t.children b := fun hmem => henters.not_child h hbnew hne ((hchild b).mp hmem).2
  have hnotChild : ∀ o ∈ outs ++ stack, o.1 ∉ t.children b := by
    intro o ho hmem
    have henters : ∃ f, Enters t init outs o.1 f := by
      obtain ho | ho := List.mem_append.mp ho
      · exact (hw.done o ho).imp fun _ h => h.1
      · exact ⟨o.2, (hw.pending o (List.mem_cons_of_mem _ ho)).2⟩
    obtain ⟨_, henters⟩ := henters
    exact henters.not_child h hbnew hne ((hchild o.1).mp hmem).2
  have hmap : ((t.children b).map (·, f')).map Prod.fst = t.children b := by simp [Function.comp_def]
  refine ⟨hp.mono fun x hx => (hsame x).mp hx, ?_, ?_, ?_, ?_, ?_, ?_, ?_, hw.names.trans hlater.names⟩
  · exact ⟨fun x hx => hk.handled x ((hsame x).mpr hx), fun x v hx => (hsame x).mp (hk.resolved x v hx), hk.live⟩
  · simp only [List.cons_append, List.map_cons, List.map_append, hmap, List.nodup_cons, List.mem_append]
    refine ⟨by simp only [hbnew, hbchild, hbstack, or_self, not_false_iff], ?_⟩
    refine List.nodup_append.mpr ⟨hdone, List.nodup_append.mpr ⟨h.touring.nodup.filter _, hstack, ?_⟩, ?_⟩
    · rintro c hc _ hc' rfl
      obtain ⟨o, ho, rfl⟩ := List.mem_map.mp hc'
      exact hnotChild o (List.mem_append_right _ ho) hc
    · rintro c hc _ hc' rfl
      obtain ⟨o, ho, rfl⟩ := List.mem_map.mp hc
      obtain hc' | hc' := List.mem_append.mp hc'
      · exact hnotChild o (List.mem_append_left _ ho) hc'
      · exact hdisjoint o.1 hc o.1 (.inr hc') rfl
  · intro o ho
    simp only [List.cons_append, List.mem_cons, List.mem_append, List.mem_map] at ho
    obtain rfl | ho | ⟨c, hc, rfl⟩ | ho := ho
    · exact ⟨hb, hne⟩
    · exact hw.visited o (by simp [ho])
    · obtain ⟨hcmem, hcd⟩ := (hchild c).mp hc
      exact ⟨hcmem, h.touring.ne_graphEntry_of_idom? hcd⟩
    · exact hw.visited o (by simp [ho])
  · intro o ho
    obtain rfl | ho := List.mem_cons.mp ho
    · exact ⟨f, henters.cons _, hrenamed⟩
    · obtain ⟨f₁, henters₁, hrenamed₁⟩ := hw.done o ho
      have hob : o.1 ≠ b := fun heq => hbnew (heq ▸ List.mem_map_of_mem ho)
      refine ⟨f₁, henters₁.cons _, hrenamed₁.sized, hrenamed₁.runs.later hlater fun i hi => ?_,
        hothers o.1 o.2 hob hrenamed₁.filled, fun phi hphi => hlater.names.indexed phi (hrenamed₁.indexed phi hphi)⟩
      exact List.mem_flatMap.mpr ⟨o, ho, hi⟩
  · intro o ho
    obtain ho | ho := List.mem_append.mp ho
    · obtain ⟨c, hc, rfl⟩ := List.mem_map.mp ho
      obtain ⟨-, hcd⟩ := (hchild c).mp hc
      refine ⟨hrenamed.sized, .inr ⟨?_, b, hcd, List.mem_cons_self⟩⟩
      rintro rfl
      rw [h.touring.idom?_normalEntry h.catchEntries, Option.some_inj] at hcd
      exact hne hcd.symm
    · obtain ⟨hf₁, henters₁⟩ := hw.pending o (List.mem_cons_of_mem _ ho)
      exact ⟨hf₁, henters₁.cons _⟩
  · intro c d hcd hd
    simp only [List.cons_append, List.map_cons, List.map_append, hmap, List.mem_cons, List.mem_append]
    obtain rfl | hd := List.mem_cons.mp hd
    · exact .inr (.inr (.inl ((hchild c).mpr ⟨(h.touring.mem_of_idom? hcd).1, hcd⟩)))
    · have hmem := hw.below c d hcd hd
      simp only [List.map_append, List.map_cons, List.mem_append, List.mem_cons] at hmem
      obtain hmem | rfl | hmem := hmem
      · exact .inr (.inl hmem)
      · exact .inl rfl
      · exact .inr (.inr (.inr hmem))
  · have hmem := hw.first
    simp only [List.map_append, List.map_cons, List.mem_append, List.mem_cons] at hmem
    simp only [List.cons_append, List.map_cons, List.map_append, List.mem_cons, List.mem_append]
    obtain hmem | hmem | hmem := hmem
    · exact .inr (.inl hmem)
    · exact .inl hmem
    · exact .inr (.inr (.inr hmem))

/-- With a step for each block, the whole tree is renamed. -/
theorem renames_renameTree (h : Base r t g₀) {steps : Nat} (hw : Walked r t g₀ init s g outs stack)
    (hsteps : r.blocks.size < outs.length + steps) :
    Renames False (fun _ => True) g s (renameTree steps stack) fun _ s' g' =>
    ∃ outs', Walked r t g₀ init s' g' outs' [] := by
  induction steps generalizing s g outs stack with
  | zero =>
    have hle : outs.length ≤ t.preorder.length := by
      have hnodup : (outs.map Prod.fst).Nodup := by
        have := hw.nodup
        rw [List.map_append] at this
        exact (List.nodup_append.mp this).1
      have hsub : outs.map Prod.fst ⊆ t.preorder := by
        intro b hb
        obtain ⟨o, ho, rfl⟩ := List.mem_map.mp hb
        exact (hw.visited o (List.mem_append_left _ ho)).1
      simpa using (List.subperm_of_subset hnodup hsub).length_le
    have hpre := h.touring.length_le
    omega
  | succ steps ih =>
    cases stack with
    | nil =>
      unfold renameTree
      exact ⟨outs, hw⟩
    | cons o stack =>
      obtain ⟨b, f⟩ := o
      obtain ⟨hb, -⟩ := hw.visited (b, f) (by simp)
      unfold renameTree
      rw [Renames.bind_iff]
      refine (hw.step h).mono fun f' s' g' hw' => ?_
      obtain ⟨k, hk₀⟩ := h.exists_block hb
      have hblock : g'.block b = .ok k := by
        rw [FlowGraph.block_eq_ok, hw'.progress.outline.blocks, hk₀]
      rw [Renames.bind_iff, Renames.getThe_iff, Renames.bind_iff, Renames.read_iff, hblock, Yields.ok_iff,
        (h.block b k hk₀ hb).2.2]
      exact ih hw' (by simp only [List.length_cons]; omega)

end Tree

end Midend.Ssa
