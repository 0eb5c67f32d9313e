import Midend.Proofs.Consistency
import Midend.Proofs.Ssa.Construct

/-! # The graph that construction leaves

Every value that an instruction reads or resumes with is in the graph and comes before it, so the check of the
graph finds nothing. A local access stays in place only where nothing that is reached takes its value.
-/

namespace Midend

open Midend.Flow

theorem FlowGraph.exists_node_of_isPresent {g : FlowGraph} {d : InstId} (h : g.isPresent d = .ok true) :
    ∃ n, g.nodes[d.index]? = some n := by
  unfold isPresent at h
  split at h
  · simp [pure, Except.pure] at h
  · rename_i hlt
    exact ⟨_, Array.getElem?_eq_getElem (Nat.not_le.mp hlt)⟩

namespace Ssa

variable {r g₀ g g' : FlowGraph} {t : Tour} {init : Frame} {s : Names} {out : BlockId → Frame} {L D : List InstId}
  {null i v : InstId} {a b : BlockId}

/-- No instruction of the block but the last one ends it. -/
def EndsOnce (r : FlowGraph) (b : BlockId) : Prop :=
  ∀ front i back, r.insts b = front ++ i :: back → back ≠ [] → ∀ n : Node, r.nodes[i.index]? = some n →
    n.inst.isTerminator = false

theorem Base.phi_not_initial (h : Base r t g₀) (hphi : i ∈ phisOf g₀ b) : i ∉ g₀.initialDefinitions := by
  intro hi
  obtain ⟨-, n, hn, -, -, hnot, -⟩ := h.initial i hi
  rw [(h.phi_of_mem hphi).2.2.2.2, Option.some_inj] at hn
  simp [← hn, phiNode, Inst.isPhi] at hnot

/-! ## Instructions of the finished graph -/

section Finished

variable (h : AllRenamed r t g₀ init s g out) (hf : Finished t g L D null g')

include h hf

theorem not_mem_dead (hi : i.index < r.nodes.size) : i ∉ D := by
  intro hmem
  obtain ⟨⟨b, hb⟩, -⟩ := (hf.gone i).mp hmem
  obtain ⟨hnew, -⟩ := h.base.phi_of_mem (h.phisOf_eq b ▸ hb)
  exact absurd hi (Nat.not_lt.mpr hnew)

theorem exists_built {n : Node} (hn : r.nodes[i.index]? = some n) : ∃ m, g'.nodes[i.index]? = some m ∧
    (∃ f, m.inst = n.inst.mapArgs f) ∧ m.block = g.layout.home? i := by
  have hlt : i.index < r.nodes.size := (Array.getElem?_eq_some_iff.mp hn).1
  obtain ⟨n₁, hn₁, hev⟩ := h.progress.nodes i n (h.base.old i n hn)
  obtain ⟨f, hinst⟩ := hev.inst_of_not_isPhi (h.base.isPhi_of_raw hn)
  have hphi : n₁.inst.isPhi = false := hev.isPhi.trans (h.base.isPhi_of_raw hn)
  obtain ⟨m, hm, hsame, hblock, -⟩ := hf.nodes i n₁ hn₁
  refine ⟨m, hm, ⟨f, hsame.trans ?_⟩, hblock.trans ?_⟩
  · split
    · rw [Inst.revive_of_not_isPhi hphi, hinst]
    · exact hinst
  · rw [if_neg (not_mem_dead h hf hlt), h.progress.block i n n₁ (h.base.old i n hn) hn₁, if_pos hlt]

theorem exists_initial (hi : i ∈ g'.initialDefinitions) : ∃ m, g'.nodes[i.index]? = some m ∧
    m.block = some FlowGraph.graphEntry ∧ m.inst.isGiven = true ∧ m.inst.opcode ≠ .phi := by
  rw [hf.initialDefinitions, h.progress.outline.initialDefinitions] at hi
  obtain ⟨hnew, n, hn, hblock, -, hphi, -, -, -, hgiven⟩ := h.base.initial i hi
  obtain ⟨n₁, hn₁, hev⟩ := h.progress.nodes i n hn
  obtain ⟨m, hm, hsame, hblock', -⟩ := hf.nodes i n₁ hn₁
  have hphi₁ : n₁.inst.isPhi = false := hev.isPhi.trans hphi
  have hdead : i ∉ D := by
    intro hmem
    obtain ⟨⟨b, hb⟩, -⟩ := (hf.gone i).mp hmem
    exact h.base.phi_not_initial (h.phisOf_eq b ▸ hb) hi
  have hinst : m.inst = n₁.inst := by
    rw [hsame]
    split
    · exact Inst.revive_of_not_isPhi hphi₁
    · rfl
  refine ⟨m, hm, ?_, ?_, fun hop => ?_⟩
  · rw [hblock', if_neg hdead, h.progress.block i n n₁ hn hn₁, if_neg (Nat.not_lt.mpr hnew), hblock]
  · obtain ⟨f, hf⟩ := hev.inst_of_not_isPhi hphi
    rw [hinst, hf, Inst.isGiven_mapArgs, hgiven]
  · rw [hinst] at hop
    simpa [hphi₁] using h.isPhi_of_opcode hn₁ hop

theorem exists_phi (hi : i ∈ phisOf g₀ b) (hlive : i ∈ L) : ∃ m, g'.nodes[i.index]? = some m ∧
    m.block = some b ∧ m.inst.isAlivePhi = true ∧ m.inst.args.length = (t.preds b).length ∧
    ∀ j, inputOf g' i j = inputOf g i j := by
  obtain ⟨hnew, -, -, -, hnode⟩ := h.base.phi_of_mem hi
  obtain ⟨n, hn, hev⟩ := h.progress.nodes i _ hnode
  obtain ⟨m, hm, hsame, hblock, -⟩ := hf.nodes i n hn
  rw [if_pos hlive] at hsame
  have hdead : i ∉ D := fun hmem => ((hf.gone i).mp hmem).2 hlive
  have hargs : m.inst.args = n.inst.args := by rw [hsame, Inst.args_revive]
  refine ⟨m, hm, ?_, ?_, ?_, fun j => ?_⟩
  · rw [hblock, if_neg hdead, h.progress.block i _ n hnode hn, if_neg (Nat.not_lt.mpr hnew)]
    rfl
  · obtain ⟨m', hm', halive⟩ := aliveIn_iff.mp ((hf.live i).mp hlive)
    obtain rfl : m = m' := by simpa [hm] using hm'
    exact halive
  · rw [hargs, hev.length_args]
    simp [phiNode, Inst.args]
  · rw [inputOf, inputOf, hm, hn, Option.bind_some, Option.bind_some, hargs]

omit h in
theorem insts_finished : g'.insts b = g.insts b := by
  unfold FlowGraph.insts
  rw [hf.layout]

omit hf in
theorem home_of_isValue (hi : i ∈ r.insts a) (hvalue : IsValue r i) : g.layout.home? i = some a := by
  obtain ⟨n, hn, hlocal, -⟩ := hvalue
  have hmem : i ∈ g.insts a := by
    refine (mem_insts_iff h.base h.progress).mpr ⟨hi, fun hnone => ?_⟩
    simpa [hlocal] using (h.progress.gone i n hn hnone).2
  exact h.progress.layout.mem_iff.mp hmem

/-! ## Presence -/

theorem isPresent_initial (hi : i ∈ g'.initialDefinitions) : g'.isPresent i = .ok true := by
  obtain ⟨m, hm, hblock, -, hop⟩ := exists_initial h hf hi
  have hlt := (Array.getElem?_eq_some_iff.mp hm).1
  unfold FlowGraph.isPresent
  rw [if_neg (Nat.not_le.mpr hlt), FlowGraph.node_eq_ok.mpr hm]
  show (if m.block.isNone then _ else _) = _
  simp [hblock, hop, hi, pure, Except.pure]

theorem isPresent_phi (hi : i ∈ phisOf g₀ b) (hlive : i ∈ L) : g'.isPresent i = .ok true := by
  obtain ⟨m, hm, hblock, halive, -⟩ := exists_phi h hf hi hlive
  have hlt := (Array.getElem?_eq_some_iff.mp hm).1
  unfold FlowGraph.isPresent
  rw [if_neg (Nat.not_le.mpr hlt), FlowGraph.node_eq_ok.mpr hm]
  show (if m.block.isNone then _ else _) = _
  simp [hblock, halive, Inst.opcode_of_isPhi (Inst.isPhi_of_isAlivePhi halive), pure, Except.pure]

theorem isPresent_built {n : Node} (hn : r.nodes[i.index]? = some n) (hplaced : g.layout.home? i = some a) :
    g'.isPresent i = .ok true := by
  obtain ⟨m, hm, ⟨f, hinst⟩, hblock⟩ := exists_built h hf hn
  have hlt := (Array.getElem?_eq_some_iff.mp hm).1
  have hop : m.inst.opcode ≠ .phi := by
    rw [hinst, Inst.opcode_mapArgs]
    intro hop
    simpa [h.base.isPhi_of_raw hn] using Inst.isPhi_of_fits (h.base.raw.admits i n hn).fits hop
  have hin : g'.isPlaced i = true := by
    rw [FlowGraph.isPlaced, hf.layout]
    exact Layout.isPlaced_iff.mpr ⟨a, hplaced⟩
  unfold FlowGraph.isPresent
  rw [if_neg (Nat.not_le.mpr hlt), FlowGraph.node_eq_ok.mpr hm]
  show (if m.block.isNone then _ else _) = _
  simp [hblock, hplaced, hop, hin, pure, Except.pure]

theorem exists_block_finished (hb : b ∈ t.preorder) : ∃ k, g'.blocks[b.index]? = some k ∧ k.preds = t.preds b ∧
    k.dominator = t.idom? b ∧ k.phis = (phisOf g₀ b).filter (· ∉ D) := by
  obtain ⟨k, hk⟩ := h.base.exists_block hb
  have hk' := hf.blocks b
  rw [h.progress.outline.blocks, hk, Option.map_some] at hk'
  obtain ⟨hpreds, hdom, -⟩ := h.base.block b k hk hb
  exact ⟨_, hk', hpreds, hdom, by rw [phisOf_eq hk]⟩

theorem preds_finished (hb : b ∈ t.preorder) : g'.preds b = .ok (t.preds b) := by
  obtain ⟨k, hk, hpreds, -⟩ := exists_block_finished h hf hb
  exact FlowGraph.preds_eq_ok.mpr ⟨k, hk, hpreds⟩

theorem mem_phisOf_finished (hb : b ∈ t.preorder) : i ∈ phisOf g' b ↔ i ∈ phisOf g₀ b ∧ i ∈ L := by
  obtain ⟨k, hk, -, -, hphis⟩ := exists_block_finished h hf hb
  rw [phisOf_eq hk, hphis, List.mem_filter, decide_eq_true_iff]
  refine and_congr_right fun hi => ?_
  rw [hf.gone, not_and, not_not]
  exact ⟨fun hL => hL ⟨b, h.phisOf_eq b ▸ hi⟩, fun hL _ => hL⟩

/-! ## Dominance -/

omit hf in
theorem Touring.number_lt {n : Nat} {d : BlockId} (hd : t.idom? b = some d) (hn : t.preorder[n]? = some b) :
    ∃ m < n, t.preorder[m]? = some d := by
  obtain ⟨n', m, hn', hm, hup⟩ := h.base.touring.exists_numbers hd
  obtain rfl : n = n' := h.base.touring.getElem?_inj hn hn'
  exact ⟨m, h.base.touring.rooted.falling_idoms n m hup, hm⟩

theorem dominates_finished (hab : Dominates t a b) (hb : b ∈ t.preorder) : g'.dominates a b = .ok true := by
  have hup : ∀ (b : BlockId) (n fuel : Nat), Dominates t a b → t.preorder[n]? = some b → n ≤ fuel →
      g'.dominatesUpTo a fuel b = .ok true := by
    intro b n fuel hab
    induction hab using Relation.ReflTransGen.head_induction_on generalizing n fuel with
    | refl =>
      intro _ _
      cases fuel <;> simp [FlowGraph.dominatesUpTo, pure, Except.pure]
    | @head b d hd _ ih =>
      intro hn hle
      obtain ⟨m, hlt, hm⟩ := Touring.number_lt h hd hn
      obtain ⟨fuel, rfl⟩ : ∃ k, fuel = k + 1 := ⟨fuel - 1, by omega⟩
      have hb : b ∈ t.preorder := List.mem_of_getElem? hn
      obtain ⟨k, hk, -, hdom, -⟩ := exists_block_finished h hf hb
      unfold FlowGraph.dominatesUpTo
      split
      · rfl
      · rw [FlowGraph.block_eq_ok.mpr hk]
        simp only [bind, Except.bind, hdom, hd]
        exact ih m fuel hm (by omega)
  obtain ⟨n, hn⟩ := List.mem_iff_getElem?.mp hb
  have hlt : n < t.preorder.length := (List.getElem?_eq_some_iff.mp hn).1
  have hsize : t.preorder.length ≤ g'.blocks.size := by
    refine h.base.touring.length_le.trans ?_
    rw [← h.base.size, ← h.progress.outline.blocks, ← Array.getElem?_eq_none_iff]
    have hnone := hf.blocks ⟨g'.blocks.size⟩
    rwa [Array.getElem?_eq_none (Nat.le_refl _), eq_comm, Option.map_eq_none_iff] at hnone
  exact hup b n _ hab hn (by omega)

theorem exists_placed (hi : i ∈ g'.insts b) : ∃ n m, r.nodes[i.index]? = some n ∧ g'.nodes[i.index]? = some m ∧
    (∃ f, m.inst = n.inst.mapArgs f) ∧ m.block = some b ∧ m.inst.opcode ≠ .phi := by
  rw [insts_finished hf] at hi
  obtain ⟨n, hn⟩ := h.base.raw.exists_node (h.mem_built hi)
  obtain ⟨m, hm, ⟨f, hinst⟩, hblock⟩ := exists_built h hf hn
  refine ⟨n, m, hn, hm, ⟨f, hinst⟩, hblock.trans (h.progress.layout.mem_iff.mp hi), ?_⟩
  rw [hinst, Inst.opcode_mapArgs]
  intro hop
  simpa [h.base.isPhi_of_raw hn] using Inst.isPhi_of_fits (h.base.raw.admits i n hn).fits hop

theorem mem_after (hv : g.layout.home? v = some b) (hi : g.layout.home? i = some b) {front back : List InstId}
    (hsplit : r.insts b = front ++ i :: back) (hmem : v ∈ front) :
    ∃ is, g'.layout.after v = .ok is ∧ i ∈ is := by
  have hnodup : (front ++ i :: back).Nodup := hsplit ▸ h.base.raw.layout.nodup b
  have hsub : (g.insts b).Sublist (front ++ i :: back) := hsplit ▸ h.progress.sub b
  obtain ⟨xs, ys, hxy, hxs, hys⟩ := List.sublist_append_iff.mp hsub
  have hvmem : v ∈ g.insts b := h.progress.layout.mem_iff.mpr hv
  have himem : i ∈ g.insts b := h.progress.layout.mem_iff.mpr hi
  have hdisjoint := (List.nodup_append.mp hnodup).2.2
  have hvxs : v ∈ xs := by
    rw [hxy] at hvmem
    obtain hvxs | hvys := List.mem_append.mp hvmem
    · exact hvxs
    · exact absurd rfl (hdisjoint v hmem v (hys.subset hvys))
  have hiys : i ∈ ys := by
    rw [hxy] at himem
    obtain hixs | hiys := List.mem_append.mp himem
    · exact absurd rfl (hdisjoint i (hxs.subset hixs) i List.mem_cons_self)
    · exact hiys
  refine ⟨((g.insts b).dropWhile (· != v)).drop 1, ?_, ?_⟩
  · unfold Layout.after
    rw [hf.layout, Layout.home_eq_ok.mpr hv]
    rfl
  · obtain ⟨front', back', rfl⟩ := List.append_of_mem hvxs
    have hfresh : ∀ x ∈ front', (x != v) = true := by
      intro x hx
      have hnodup' : ((front' ++ v :: back') ++ ys).Nodup := hxy ▸ h.progress.layout.nodup b
      rw [List.append_assoc] at hnodup'
      exact bne_iff_ne.mpr ((List.nodup_append.mp hnodup').2.2 x hx v (by simp))
    rw [hxy, List.append_assoc, List.dropWhile_append_of_pos hfresh]
    simp [hiys]

theorem arrives_of_origin (hb : b ∈ t.preorder) (hi : i ∈ g'.insts b) {front back : List InstId}
    (hsplit : r.insts b = front ++ i :: back) (horigin : Origin r t g₀ b front v)
    (hlive : ∀ c, v ∈ phisOf g₀ c → v ∈ L) :
    g'.isPresent v = .ok true ∧ g'.instDominates v i = .ok true := by
  obtain ⟨n, m, hn, hm, -, hblock, hop⟩ := exists_placed h hf hi
  have hhome : g.layout.home? i = some b := by
    rw [insts_finished hf] at hi
    exact h.progress.layout.mem_iff.mp hi
  have hlt : i.index < r.nodes.size := (Array.getElem?_eq_some_iff.mp hn).1
  obtain hv | ⟨a, hab, hv⟩ | ⟨a, hab, hne, hv, hvalue⟩ | ⟨hv, hvalue⟩ := horigin
  · have hv' : v ∈ g'.initialDefinitions := by
      rwa [hf.initialDefinitions, h.progress.outline.initialDefinitions]
    obtain ⟨k, hk, hkblock, -⟩ := exists_initial h hf hv'
    obtain ⟨hnew, -⟩ := h.base.initial v hv
    have hne : v ≠ i := by
      rintro rfl
      omega
    have hentry : Dominates t FlowGraph.graphEntry b := h.base.touring.above_graphEntry hb
    refine ⟨isPresent_initial h hf hv', ?_⟩
    rw [FlowGraph.instDominates_eq hk hm hkblock hblock, if_pos (.inl rfl), if_neg hne]
    exact dominates_finished h hf hentry hb
  · obtain ⟨k, hk, hkblock, halive, -⟩ := exists_phi h hf hv (hlive a hv)
    obtain ⟨hnew, -⟩ := h.base.phi_of_mem hv
    have hne : v ≠ i := by
      rintro rfl
      omega
    refine ⟨isPresent_phi h hf hv (hlive a hv), ?_⟩
    rw [FlowGraph.instDominates_eq hk hm hkblock hblock,
      if_pos (.inr (Inst.opcode_of_isPhi (Inst.isPhi_of_isAlivePhi halive))), if_neg hne]
    exact dominates_finished h hf hab hb
  · have hplaced := home_of_isValue h hv hvalue
    obtain ⟨n', hn', -⟩ := hvalue
    have hbuilt : v ∈ g'.insts a := by
      rw [insts_finished hf]
      exact h.progress.layout.mem_iff.mpr hplaced
    obtain ⟨-, k, -, hk, -, hkblock, hkop⟩ := exists_placed h hf hbuilt
    refine ⟨isPresent_built h hf hn' hplaced, ?_⟩
    rw [FlowGraph.instDominates_eq hk hm hkblock hblock, if_neg (not_or.mpr ⟨h.base.ne_graphEntry hv, hkop⟩),
      if_pos hne]
    exact dominates_finished h hf hab hb
  · have hvb : v ∈ r.insts b := by simp [hsplit, hv]
    have hplaced := home_of_isValue h hvb hvalue
    obtain ⟨n', hn', -⟩ := hvalue
    have hbuilt : v ∈ g'.insts b := by
      rw [insts_finished hf]
      exact h.progress.layout.mem_iff.mpr hplaced
    obtain ⟨-, k, -, hk, -, hkblock, hkop⟩ := exists_placed h hf hbuilt
    obtain ⟨is, his, hmem⟩ := mem_after h hf hplaced hhome hsplit hv
    refine ⟨isPresent_built h hf hn' hplaced, ?_⟩
    rw [FlowGraph.instDominates_eq hk hm hkblock hblock, if_neg (not_or.mpr ⟨h.base.ne_graphEntry hvb, hkop⟩),
      if_neg (not_not.mpr rfl), if_neg hop, his]
    simp [bind, Except.bind, pure, Except.pure, hmem]

/-! ## Inputs, environments and uses -/

omit h in
theorem inputOf_finished (i : InstId) (j : Nat) : inputOf g' i j = inputOf g i j := by
  unfold inputOf
  cases hn : g.nodes[i.index]? with
  | none =>
    rw [Array.getElem?_eq_none_iff, ← hf.size, ← Array.getElem?_eq_none_iff] at hn
    rw [hn]
  | some n =>
    obtain ⟨m, hm, hinst, -⟩ := hf.nodes i n hn
    rw [hm, Option.bind_some, Option.bind_some, hinst]
    split
    · rw [Inst.args_revive]
    · rfl

theorem mem_live_of_lives (hlives : Lives g₀ g v) (hv : v ∈ phisOf g₀ b) : v ∈ L := by
  obtain ⟨-, -, -, -, hnode⟩ := h.base.phi_of_mem hv
  exact hf.kept v (hlives _ hnode rfl)

theorem lastInst_finished (hb : b ∈ t.preorder) (hne : b ≠ FlowGraph.graphEntry) :
    ∃ (last : InstId) (n : Node) (front : List InstId), g'.lastInst b = some last ∧ r.nodes[last.index]? = some n ∧
      n.inst.isTerminator = true ∧ r.insts b = front ++ [last] ∧ last ∈ g'.insts b := by
  obtain ⟨last, n, hlast, hn, hterm, -⟩ := h.base.split b hb hne
  obtain ⟨front, hfront⟩ := List.getLast?_eq_some_iff.mp (show (r.insts b).getLast? = some last from hlast)
  have hkept : g'.lastInst b = some last := by
    rw [FlowGraph.lastInst, hf.layout]
    exact lastInst_eq h.base h.progress hlast hn (Inst.isLocal_of_isTerminator hterm)
  exact ⟨last, n, front, hkept, hn, hterm, hfront, List.mem_of_getLast? hkept⟩

theorem inputHolds_inst (hb : b ∈ t.preorder) (hi : i ∈ g'.insts b) {k : Nat} (hk : inputOf g' i k = some v) :
    FlowGraph.InputHolds g' i k v := by
  have hmem : i ∈ g.insts b := insts_finished hf ▸ hi
  obtain ⟨front, back, hsplit, horigin, hlives⟩ :=
    h.exists_operand hb (h.mem_built hmem) (inputOf_finished hf i k ▸ hk)
  obtain ⟨hpresent, hdom⟩ := arrives_of_origin h hf hb hi hsplit horigin fun c hc => mem_live_of_lives h hf hlives hc
  obtain ⟨-, m, -, hm, -, -, hop⟩ := exists_placed h hf hi
  refine ⟨hpresent, ?_, ?_⟩
  · obtain ⟨d, hd⟩ := FlowGraph.exists_node_of_isPresent hpresent
    refine ⟨d, hd, (hf.listed.inputs v d hd ⟨i, k⟩).mpr ⟨⟨b, ?_, .inr hi⟩, hk⟩⟩
    rwa [hf.preorder]
  · unfold FlowGraph.inputArrives
    rw [FlowGraph.opcode_eq_ok.mpr ⟨m, hm, rfl⟩]
    show (if m.inst.opcode ≠ .phi then _ else _) = _
    rw [if_pos hop, hdom]

theorem inputHolds_phi (hi : i ∈ phisOf g₀ b) (hlive : i ∈ L) {k : Nat} (hk : inputOf g' i k = some v) :
    FlowGraph.InputHolds g' i k v := by
  obtain ⟨m, hm, hblock, halive, -, hsame⟩ := exists_phi h hf hi hlive
  have hin : inputOf g i k = some v := hsame k ▸ hk
  obtain ⟨p, hp, hpre, hne, hout⟩ := h.exists_incoming hi hin
  obtain ⟨last, n, front, hlast, hn, hterm, hsplit, hmem⟩ := lastInst_finished h hf hpre hne
  have hlives : ∀ c, v ∈ phisOf g₀ c → v ∈ L := by
    intro c hc
    obtain ⟨-, -, -, -, hnode⟩ := h.base.phi_of_mem hc
    obtain ⟨n₁, hn₁, hev⟩ := h.progress.nodes v _ hnode
    exact hf.closed i hlive k v hin (isPhiIn_iff.mpr ⟨n₁, hn₁, hev.isPhi⟩)
  have horigin : Origin r t g₀ p front v := by
    obtain hv | hv | hv | ⟨hv, hvalue⟩ := (h.stocked hpre hne).2.origin v (List.mem_of_getElem? hout)
    · exact .inl hv
    · exact .inr (.inl hv)
    · exact .inr (.inr (.inl hv))
    · refine .inr (.inr (.inr ⟨?_, hvalue⟩))
      rw [hsplit] at hv
      obtain hv | hv := List.mem_append.mp hv
      · exact hv
      · -- the terminator itself is no value
        obtain ⟨n', hn', -, hdef⟩ := hvalue
        obtain rfl : v = last := List.mem_singleton.mp hv
        obtain rfl : n = n' := by simpa [hn] using hn'
        simp [Inst.isDefinition_of_isTerminator hterm] at hdef
  obtain ⟨hpresent, hdom⟩ := arrives_of_origin h hf hpre hmem hsplit horigin hlives
  obtain ⟨-, hb, -⟩ := h.base.phi_of_mem hi
  refine ⟨hpresent, ?_, ?_⟩
  · obtain ⟨d, hd⟩ := FlowGraph.exists_node_of_isPresent hpresent
    refine ⟨d, hd, (hf.listed.inputs v d hd ⟨i, k⟩).mpr ⟨⟨b, hf.preorder ▸ hb, .inl ⟨?_, (hf.live i).mp hlive⟩⟩, hk⟩⟩
    exact (mem_phisOf_finished h hf hb).mpr ⟨hi, hlive⟩
  · unfold FlowGraph.inputArrives
    rw [FlowGraph.opcode_eq_ok.mpr ⟨m, hm, rfl⟩, FlowGraph.instBlock_eq_ok.mpr ⟨m, hm, rfl⟩]
    show (if m.inst.opcode ≠ .phi then _ else _) = _
    rw [if_neg (not_not.mpr (Inst.opcode_of_isPhi (Inst.isPhi_of_isAlivePhi halive))), hblock]
    simp only [preds_finished h hf hb, bind, Except.bind, pure, Except.pure, hp, Option.bind_some, hlast]
    exact hdom

theorem arrives_of_resumes (hb : b ∈ t.preorder) (hi : i ∈ g'.insts b) {k : Nat} (hk : resumeOf g' i k = some v) :
    g'.isPresent v = .ok true ∧ g'.instDominates v i = .ok true := by
  have hmem : i ∈ g.insts b := insts_finished hf ▸ hi
  obtain ⟨front, back, f, f', hsplit, ⟨n, as, rest, hstep⟩, hstocked⟩ := h.exists_step_of_mem hb (h.mem_built hmem)
  rw [hf.envs b i k hb hmem] at hk
  obtain ⟨w, hw, rfl⟩ := Option.map_eq_some_iff.mp hk
  split
  case isTrue =>
    have hnull : null ∈ g₀.initialDefinitions := h.progress.outline.initialDefinitions ▸ hf.null.1
    exact arrives_of_origin h hf hb hi hsplit (.inl hnull) fun c hc => absurd hnull (h.base.phi_not_initial hc)
  case isFalse hdead =>
    have hwf : w ∈ f := by
      obtain ⟨n', hn', -, henv⟩ := hstep.renamed
      rw [resumeOf, hn', Option.bind_some, Node.envValues, henv] at hw
      unfold resumeAt at hw
      rw [hstep.frame]
      split at hw
      · rw [hstep.frame] at hw
        exact List.mem_of_getElem? hw
      · split at hw
        · have hrest : w ∈ rest := List.mem_of_getElem? hw
          simp [hrest]
        · simp at hw
    refine arrives_of_origin h hf hb hi hsplit (hstocked.origin w hwf) fun c hc => ?_
    by_contra hlive
    exact hdead ((hf.gone w).mpr ⟨⟨c, h.phisOf_eq c ▸ hc⟩, hlive⟩)

theorem envValueHolds (hb : b ∈ t.preorder) (hi : i ∈ g'.insts b) {k : Nat} (hk : resumeOf g' i k = some v) :
    FlowGraph.EnvValueHolds g' i k v := by
  obtain ⟨hpresent, -⟩ := arrives_of_resumes h hf hb hi hk
  obtain ⟨d, hd⟩ := FlowGraph.exists_node_of_isPresent hpresent
  exact ⟨hpresent, d, hd, (hf.listed.envs v d hd ⟨i, k⟩).mpr ⟨⟨b, hf.preorder ▸ hb, hi⟩, hk⟩⟩

theorem useHolds {d : Node} (hd : g'.nodes[v.index]? = some d) {u : Use} (hu : u ∈ d.inputUses) :
    FlowGraph.UseHolds g' v u := by
  obtain ⟨⟨b, hb, huser⟩, hread⟩ := (hf.listed.inputs v d hd u).mp hu
  obtain ⟨n, hn, hget⟩ := Option.bind_eq_some_iff.mp hread
  refine ⟨n, hn, .inr ⟨?_, hget⟩⟩
  rw [hf.preorder] at hb
  obtain ⟨hphi, -⟩ | hplaced := huser
  · obtain ⟨hphi, hlive⟩ := (mem_phisOf_finished h hf hb).mp hphi
    exact isPresent_phi h hf hphi hlive
  · rw [insts_finished hf] at hplaced
    obtain ⟨n', hn'⟩ := h.base.raw.exists_node (h.mem_built hplaced)
    exact isPresent_built h hf hn' (h.progress.layout.mem_iff.mp hplaced)

/-! ## Blocks -/

theorem succs_finished (hb : b ∈ t.preorder) : g'.succs b = .ok (r.next b) := by
  by_cases hne : b = FlowGraph.graphEntry
  · subst hne
    unfold FlowGraph.succs
    rw [if_pos rfl, hf.catchEntries, Raw.next_graphEntry h.base.catchEntries]
    rfl
  · obtain ⟨last, n, front, hlast, hn, -, hsplit, hmem⟩ := lastInst_finished h hf hb hne
    obtain ⟨m, hm, ⟨f, hinst⟩, -⟩ := exists_built h hf hn
    have hrlast : r.lastInst b = some last := by
      show (r.insts b).getLast? = some last
      simp [hsplit]
    have hsuccessors : m.inst.successors = r.next b := by
      rw [hinst, Inst.successors_mapArgs, Raw.next_of_last hne hrlast hn]
    simp only [FlowGraph.succs, if_neg hne, hlast, FlowGraph.inst_eq_ok.mpr ⟨m, hm, rfl⟩, bind, Except.bind,
      hsuccessors]
    rfl

theorem phiHolds (hb : b ∈ t.preorder) (hi : i ∈ phisOf g' b) : FlowGraph.PhiHolds g' b i := by
  obtain ⟨hphi, hlive⟩ := (mem_phisOf_finished h hf hb).mp hi
  obtain ⟨m, hm, -, -, hlength, -⟩ := exists_phi h hf hphi hlive
  refine ⟨⟨_, _, FlowGraph.args_eq_ok.mpr ⟨m, hm, rfl⟩, preds_finished h hf hb, hlength⟩, m, hm, ?_, ?_⟩
  · intro k d hk
    refine inputHolds_phi h hf hphi hlive (k := k) ?_
    rw [inputOf, hm]
    exact hk
  · exact fun u hu => useHolds h hf hm hu

theorem instHolds (hb : b ∈ t.preorder) (hone : EndsOnce r b) {last : InstId} (hlast : g'.lastInst b = some last)
    (hi : i ∈ g'.insts b) : ∃ n, g'.nodes[i.index]? = some n ∧ FlowGraph.InstHolds g' b last i n := by
  obtain ⟨n, m, hn, hm, ⟨f, hinst⟩, hblock, -⟩ := exists_placed h hf hi
  have hmem : i ∈ r.insts b := h.mem_built (insts_finished hf ▸ hi)
  refine ⟨m, hm, ?_, hblock, ⟨?_, fun u hu => useHolds h hf hm hu⟩, ?_⟩
  · obtain ⟨last', n', front, hlast', hn', hterm, hsplit, -⟩ := lastInst_finished h hf hb (h.base.ne_graphEntry hmem)
    obtain rfl : last = last' := by simpa [hlast] using hlast'
    rw [hinst, Inst.isTerminator_mapArgs]
    constructor
    · intro hi'
      by_contra hne
      rw [hsplit, List.mem_append] at hmem
      obtain ⟨xs, ys, rfl⟩ := List.append_of_mem (hmem.resolve_right (by simpa using hne))
      rw [hone xs i (ys ++ [last]) (by rw [hsplit]; simp) (by simp) n hn] at hi'
      cases hi'
    · rintro rfl
      obtain rfl : n = n' := by simpa [hn] using hn'
      exact hterm
  · intro k d hk
    refine inputHolds_inst h hf hb hi (k := k) ?_
    rw [inputOf, hm]
    exact hk
  · intro e he k d hk
    refine envValueHolds h hf hb hi (k := k) ?_
    rw [resumeOf, hm, Option.bind_some, Node.envValues, he]
    exact hk

theorem holds_finished (hone : ∀ b ∈ t.preorder, EndsOnce r b) : g'.Holds where
  blocks := by
    intro b hb
    have hb : b ∈ t.preorder := by
      rw [FlowGraph.reversePostorder, List.mem_reverse, hf.postorder] at hb
      exact h.base.touring.opened.subset (by simpa using hb)
    refine ⟨⟨r.next b, succs_finished h hf hb, fun s hs => ?_⟩, ?_, fun hne => ?_⟩
    · have hsb := h.base.touring.mem_of_edge hb hs
      exact ⟨t.preds s, preds_finished h hf hsb, h.base.touring.mem_preds_iff.mpr ⟨hb, hs⟩⟩
    · obtain ⟨k, hk, -⟩ := exists_block_finished h hf hb
      have halive : ∀ phi ∈ k.phis, ∃ a, g'.isAlivePhi phi = .ok a := by
        intro phi hphi
        obtain ⟨hmem, hlive⟩ := (mem_phisOf_finished h hf hb).mp (by rwa [phisOf_eq hk])
        obtain ⟨m, hm, -⟩ := exists_phi h hf hmem hlive
        exact ⟨_, FlowGraph.isAlivePhi_eq_ok.mpr ⟨m, hm, rfl⟩⟩
      refine ⟨_, FlowGraph.livePhis_eq_ok.mpr ⟨k.phis, FlowGraph.phis_eq_ok.mpr ⟨k, hk, rfl⟩, halive, rfl⟩, ?_⟩
      intro phi hphi
      refine phiHolds h hf hb ?_
      rw [phisOf_eq hk]
      exact List.mem_of_mem_filter hphi
    · obtain ⟨last, -, -, hlast, -⟩ := lastInst_finished h hf hb hne
      exact ⟨last, hlast, fun i hi => instHolds h hf hb (hone b hb) hlast hi⟩
  initial := by
    intro d hd
    obtain ⟨m, hm, -⟩ := exists_initial h hf hd
    exact ⟨m, hm, fun u hu => useHolds h hf hm hu⟩

theorem local_unread (hb : b ∈ t.preorder) (hi : i ∈ g'.insts b) {n : Node} (hn : r.nodes[i.index]? = some n)
    (hlocal : n.inst.isLocal = true) :
    (∃ (j : InstId) (m : Node), r.nodes[j.index]? = some m ∧ i ∈ m.inst.args) ∧
      ∀ (c : BlockId) (j : InstId) (m : Node), c ∈ t.preorder → j ∈ r.insts c → r.nodes[j.index]? = some m →
        i ∉ m.inst.args := by
  have hmem : i ∈ g.insts b := insts_finished hf ▸ hi
  have hhome : g.layout.home? i = some b := h.progress.layout.mem_iff.mp hmem
  constructor
  · rw [← h.base.raw.used i n hn]
    obtain ⟨front, back, f, f', hsplit, ⟨n', as, rest, hstep⟩, -⟩ := h.exists_step_of_mem hb (h.mem_built hmem)
    obtain rfl : n = n' := by simpa [hn] using hstep.built
    have hleaves := hstep.leaves
    by_contra hused
    rw [Bool.not_eq_true] at hused
    have hgone : g.layout.home? i = none := by
      obtain ⟨slot, hinst⟩ | ⟨slot, w, hinst⟩ := Inst.local_cases (h.base.raw.admits i n hn).fits hlocal
      · unfold Leaves at hleaves
        rw [hinst] at hleaves
        obtain ⟨-, v, -, -, hv⟩ := hleaves
        exact hv.gone hused
      · unfold Leaves at hleaves
        rw [hinst] at hleaves
        obtain ⟨-, v, -, hv⟩ := hleaves
        exact hv.gone hused
    simp [hhome] at hgone
  · intro c j m hc hj hm hread
    obtain ⟨front, back, f, f', hsplit, ⟨n', as, rest, hstep⟩, -⟩ := h.exists_step_of_mem hc hj
    obtain rfl : m = n' := by simpa [hm] using hstep.built
    have hgone := hstep.consumed i hread (by simp [isLocalIn, hn, hlocal])
    simp [hhome] at hgone

end Finished

/-! ## The main statement -/

/-- The value of a local access is wanted, but only where control never comes. -/
structure Stranded (r : FlowGraph) (i : InstId) : Prop where
  wanted : ∃ (j : InstId) (m : Node), r.nodes[j.index]? = some m ∧ i ∈ m.inst.args
  unreached : ∀ (j : InstId) (m : Node) (c : BlockId), r.nodes[j.index]? = some m → i ∈ m.inst.args →
    j ∈ r.insts c → ¬ r.Reachable c

/-- Construction gives a graph or gives the method up, and never faults. A graph that it gives is consistent,
unless control could not get past the middle of some block that it comes to, and has no local accesses but those
that only unreached instructions take a value from. -/
theorem construct_consistent {b : BlockId} {r : FlowGraph} (h : Built b r) :
    ∃ result g, Ssa.construct.run r = .ok (result, g) ∧ (result = .ok () →
      ((∀ c, r.Reachable c → EndsOnce r c) → g.Consistent) ∧
      ∀ c i n, r.Reachable c → i ∈ g.insts c → g.nodes[i.index]? = some n →
        n.inst.opcode = .loadLocal ∨ n.inst.opcode = .storeLocal → Stranded r i) := by
  obtain ⟨result, g, hrun, hpost⟩ := (gives_construct h.raw.1).exists_ok
  refine ⟨result, g, hrun, fun hok => ?_⟩
  obtain ⟨p, t, g₀, init, s, g₁, out, L, D, null, -, -, -, hall, hfin⟩ := hpost () hok
  have hreach : ∀ c, r.Reachable c ↔ c ∈ t.preorder := fun c => hall.base.touring.mem_preorder_iff_reachable.symm
  simp only [hreach]
  constructor
  · intro hone
    exact FlowGraph.consistent_iff.mpr (holds_finished hall hfin hone)
  · intro c i n hc hi hn hop
    obtain ⟨n₀, m, hn₀, hm, ⟨f, hinst⟩, -⟩ := exists_placed hall hfin hi
    obtain rfl : n = m := by simpa [hn] using hm
    have hlocal : n₀.inst.isLocal = true := by
      rw [hinst, Inst.opcode_mapArgs] at hop
      simpa [Inst.isLocal] using hop
    obtain ⟨hwanted, hunread⟩ := local_unread hall hfin hc hi hn₀ hlocal
    refine ⟨hwanted, fun j m' c' hm' hread hj hc' => ?_⟩
    exact hunread c' j m' ((hreach c').mp hc') hj hm' hread

/-- Counts a local variable up to the parameter. Behind the loop the parameter is read for a block that nothing
leads to. -/
def countingLoop : List Command :=
  [.joinBlock, .targetBlock, .targetBlock, .targetBlock,
    .inst (.constant (.smi 0)), .inst (.storeLocal 1 ⟨0⟩), .inst (.goto ⟨2⟩),
    .appendTo ⟨2⟩, .inst (.loadLocal 1), .inst (.loadLocal 0),
    .inst (.branch (.relational .lt ⟨3⟩ ⟨4⟩ none) ⟨3⟩ ⟨4⟩),
    .appendTo ⟨3⟩, .inst (.loadLocal 1), .inst (.constant (.smi 1)), .inst (.smiOp .add ⟨6⟩ ⟨7⟩),
    .inst (.storeLocal 1 ⟨8⟩), .inst (.goto ⟨2⟩),
    .appendTo ⟨4⟩, .inst (.loadLocal 0), .inst (.loadLocal 1), .inst (.unary .ret ⟨12⟩),
    .appendTo ⟨5⟩, .inst (.unary .ret ⟨11⟩)]

def countingLoopHolds (r : FlowGraph) : Bool :=
  match Ssa.construct.run r with
  | .ok (.ok (), g) => r.catchEntries.isEmpty && (g.insts ⟨4⟩).contains ⟨11⟩ &&
    (g.nodes[11]?).any (·.inst.opcode == .loadLocal) &&
    (r.next ⟨0⟩).contains ⟨1⟩ && (r.next ⟨1⟩).contains ⟨2⟩ && (r.next ⟨2⟩).contains ⟨4⟩ &&
    (List.range r.blocks.size).all fun c => (r.insts ⟨c⟩).dropLast.all fun i =>
      (r.nodes[i.index]?).all fun n => !n.inst.isTerminator
  | _ => false

theorem exists_countingLoop : ∃ b r, Command.script countingLoop FlowGraph.normalEntry (FlowGraph.new "f" 1 1) =
    some (b, r) ∧ Built b r ∧ countingLoopHolds r = true := by
  have h : ((Command.script countingLoop FlowGraph.normalEntry (FlowGraph.new "f" 1 1)).map
      (countingLoopHolds ·.2)) = some true := by decide +kernel
  obtain ⟨⟨b, r⟩, hrun, hholds⟩ := Option.map_eq_some_iff.mp h
  have hstart : Built FlowGraph.normalEntry (FlowGraph.new "f" 1 1) := @Built.start "f" 1 1 none (by decide)
  exact ⟨b, r, hrun, hstart.script hrun, hholds⟩

/-- The loop becomes a consistent graph, in which the read for the unreached block is left behind. -/
theorem construct_consistent_countingLoop : ∃ b r g, Built b r ∧
    Command.script countingLoop FlowGraph.normalEntry (FlowGraph.new "f" 1 1) = some (b, r) ∧
    Ssa.construct.run r = .ok (.ok (), g) ∧ g.Consistent ∧ Stranded r ⟨11⟩ := by
  obtain ⟨b, r, hscript, hbuilt, hholds⟩ := exists_countingLoop
  obtain ⟨result, g, hrun, hpost⟩ := construct_consistent hbuilt
  unfold countingLoopHolds at hholds
  rw [hrun] at hholds
  match result with
  | .error e => cases hholds
  | .ok () =>
    simp only [Bool.and_eq_true, List.isEmpty_iff, List.contains_iff_mem, List.all_eq_true, List.mem_range,
      Bool.not_eq_true', beq_iff_eq, Option.any_eq_true, Option.all_eq_true] at hholds
    obtain ⟨⟨⟨⟨⟨⟨hcatch, hplaced⟩, n, hn, hload⟩, h₁⟩, h₂⟩, h₄⟩, hends⟩ := hholds
    have hraw : Raw r := hbuilt.raw.1
    have hreach : ∀ c, r.Reachable c → EndsOnce r c := by
      intro c hc front i back hsplit hback m hm
      have hlt : c.index < r.blocks.size := by
        obtain rfl | ⟨p, -, hedge⟩ := hc.cases_tail
        · have hentry : FlowGraph.normalEntry.index < r.blocks.size := (Array.getElem?_eq_some_iff.mp hraw.entry).1
          exact Nat.lt_of_succ_lt hentry
        · exact (hraw.handle_of_mem_next hcatch hedge).1
      refine hends c.index hlt i ?_ m hm
      rw [hsplit, List.dropLast_append_of_ne_nil (List.cons_ne_nil i back), List.dropLast_cons_of_ne_nil hback]
      simp
    have hfour : r.Reachable ⟨4⟩ := ((Relation.ReflTransGen.single h₁).tail h₂).tail h₄
    obtain ⟨hclean, hstranded⟩ := hpost rfl
    exact ⟨b, r, g, hbuilt, hscript, hrun, hclean hreach, hstranded ⟨4⟩ ⟨11⟩ n hfour hplaced hn (.inl hload)⟩

end Ssa

end Midend
