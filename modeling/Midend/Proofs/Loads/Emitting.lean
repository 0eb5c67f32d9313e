import Midend.Proofs.Loads.Carrying

/-! # Phis that come to life

In the end every phi that was made is looked at once. Where pending phis read nothing but each other and one more value,
they all give way to that value. A phi that nothing reads goes away, and any other comes to life.
-/

namespace Midend.Loads

open Midend.Flow FlowGraph Ssa Execution

variable {g h h' : FlowGraph} {ρ τ : InstId → InstId} {made : InstId → Option Merge} {b c : BlockId}
  {d i u v w phi current : InstId} {p p' : Progress} {n : Numbering} {k : Nat} {pending phis todo : List InstId}

/-! ## Clusters -/

/-- The inputs `as` of a phi were taken into account. -/
structure Joins (pending as : List InstId) (c c' : Cluster) : Prop where
  position : c'.position = c.position
  phis : ∃ new, c'.phis = c.phis ++ new ∧ ∀ d ∈ new, d ∈ pending
  nodup : c.phis.Nodup → c'.phis.Nodup
  value : ∀ v ∈ c'.value, v ∈ c.value ∨ v ∈ as ∧ v ∉ pending
  kept : ∀ v ∈ c.value, v ∈ c'.value
  inputs : ∀ a ∈ as, a ∈ c'.phis ∨ a ∈ c'.value

namespace Joins

variable {as as' : List InstId} {x y z : Cluster}

theorem of_seen (h : ∀ a ∈ as, a ∈ x.phis ∨ a ∈ x.value) : Joins pending as x x :=
  ⟨rfl, ⟨[], by simp⟩, id, fun _ => .inl, fun _ h => h, h⟩

theorem mem_phis (h : Joins pending as x y) (hd : d ∈ x.phis) : d ∈ y.phis := by
  obtain ⟨new, hnew, -⟩ := h.phis
  rw [hnew]
  exact List.mem_append_left _ hd

theorem trans (h : Joins pending as x y) (h' : Joins pending as' y z) : Joins pending (as ++ as') x z where
  position := h'.position.trans h.position
  phis := by
    obtain ⟨new, hnew, hall⟩ := h.phis
    obtain ⟨new', hnew', hall'⟩ := h'.phis
    refine ⟨new ++ new', by rw [hnew', hnew, List.append_assoc], fun d hd => ?_⟩
    exact (List.mem_append.mp hd).elim (hall d) (hall' d)
  nodup hnodup := h'.nodup (h.nodup hnodup)
  value v hv := by
    obtain hv | ⟨hv, hnot⟩ := h'.value v hv
    · exact (h.value v hv).imp_right (And.imp_left (List.mem_append_left _))
    · exact .inr ⟨List.mem_append_right _ hv, hnot⟩
  kept v hv := h'.kept v (h.kept v hv)
  inputs a ha := by
    obtain ha | ha := List.mem_append.mp ha
    · exact (h.inputs a ha).imp h'.mem_phis (h'.kept a)
    · exact h'.inputs a ha

end Joins

theorem addInput_joins {x y : Cluster} {a : InstId} (hadd : Cluster.addInput pending current x a = some y)
    (hcurrent : current ∈ x.phis) : Joins pending [a] x y := by
  unfold Cluster.addInput at hadd
  split at hadd
  case isTrue heq =>
    obtain rfl := Option.some_inj.mp hadd
    exact .of_seen (by simp [heq, hcurrent])
  split at hadd
  case isTrue hpending =>
    obtain rfl := Option.some_inj.mp hadd
    split
    case isTrue hmem => exact .of_seen (by simp [hmem])
    case isFalse hnot =>
      refine ⟨rfl, ⟨[a], rfl, by simpa using hpending⟩, fun hnodup => ?_, fun _ => .inl, fun _ h => h, by simp⟩
      rw [← List.concat_eq_append]
      exact hnodup.concat hnot
  case isFalse hpending =>
    split at hadd
    case h_1 hnone =>
      obtain rfl := Option.some_inj.mp hadd
      exact ⟨rfl, ⟨[], by simp⟩, id, by simp [hpending], by simp [hnone], by simp⟩
    case h_2 v hv =>
      split at hadd
      case isFalse => cases hadd
      case isTrue heq =>
        obtain rfl := Option.some_inj.mp hadd
        exact .of_seen (by simp [hv, heq])

theorem addInputs_joins {as : List InstId} {x y : Cluster}
    (hfold : as.foldlM (Cluster.addInput pending current) x = some y) (hcurrent : current ∈ x.phis) :
    Joins pending as x y := by
  induction as generalizing x with
  | nil =>
    obtain rfl := Option.some_inj.mp hfold
    exact .of_seen fun _ h => nomatch h
  | cons a as ih =>
    rw [List.foldlM_cons] at hfold
    obtain ⟨z, hz, hrest⟩ := Option.bind_eq_some_iff.mp hfold
    have hjoins := addInput_joins hz hcurrent
    exact hjoins.trans (ih hrest (hjoins.mem_phis hcurrent))

/-- Pending phis, of which those that were looked at read each other and one value that is not pending. -/
structure Closing (h : FlowGraph) (pending : List InstId) (phi : InstId) (c : Cluster) : Prop where
  start : phi ∈ c.phis
  members : ∀ d ∈ c.phis, d ∈ pending
  nodup : c.phis.Nodup
  value : ∀ v ∈ c.value, v ∉ pending ∧ ∃ d ∈ c.phis, ∃ as, h.args d = .ok as ∧ v ∈ as
  inputs : ∀ k < c.position, ∀ d, c.phis[k]? = some d → ∃ as, h.args d = .ok as ∧ ∀ a ∈ as, a ∈ c.phis ∨ a ∈ c.value

theorem Closing.start_single (hphi : phi ∈ pending) : Closing h pending phi { phis := [phi] } where
  start := List.mem_singleton_self phi
  members := by simpa using hphi
  nodup := List.nodup_singleton phi
  value _ hv := nomatch hv
  inputs _ hk := absurd hk (Nat.not_lt_zero _)

theorem Closing.step {x y : Cluster} {as : List InstId} (hx : Closing h pending phi x)
    (hcurrent : x.phis[x.position]? = some current) (has : h.args current = .ok as) (hj : Joins pending as x y) :
    Closing h pending phi { y with position := y.position + 1 } := by
  obtain ⟨new, hnew, hall⟩ := hj.phis
  have hmem := List.mem_of_getElem? hcurrent
  refine ⟨hj.mem_phis hx.start, fun d hd => ?_, hj.nodup hx.nodup, fun v hv => ?_, fun k hk d hd => ?_⟩
  · rw [hnew] at hd
    exact (List.mem_append.mp hd).elim (hx.members d) (hall d)
  · obtain hv | ⟨hv, hnot⟩ := hj.value v hv
    · obtain ⟨hnot, d, hd, hread⟩ := hx.value v hv
      exact ⟨hnot, d, hj.mem_phis hd, hread⟩
    · exact ⟨hnot, current, hj.mem_phis hmem, as, has, hv⟩
  · have hlt : x.position < x.phis.length := (List.getElem?_eq_some_iff.mp hcurrent).1
    have hk : k < x.position + 1 := hj.position ▸ hk
    have hd : x.phis[k]? = some d := by
      have hd : y.phis[k]? = some d := hd
      rwa [hnew, List.getElem?_append_left (by omega)] at hd
    obtain hk | rfl := Nat.lt_succ_iff_lt_or_eq.mp hk
    · obtain ⟨as', has', hinputs⟩ := hx.inputs k hk d hd
      exact ⟨as', has', fun a ha => (hinputs a ha).imp hj.mem_phis (hj.kept a)⟩
    · obtain rfl := Option.some_inj.mp (hd.symm.trans hcurrent)
      exact ⟨as, has, hj.inputs⟩

theorem closeCluster_of_ok {steps : Nat} {x y : Cluster} (hx : Closing h pending phi x)
    (hok : closeCluster h pending steps x = .ok (some y)) :
    Closing h pending phi y ∧ ∀ d ∈ y.phis, ∃ as, h.args d = .ok as ∧ ∀ a ∈ as, a ∈ y.phis ∨ a ∈ y.value := by
  induction steps generalizing x with
  | zero => cases hok
  | succ steps ih =>
    unfold closeCluster at hok
    split at hok
    case h_1 hend =>
      obtain rfl := Option.some_inj.mp (pure_eq_ok.mp hok)
      refine ⟨hx, fun d hd => ?_⟩
      obtain ⟨k, hk⟩ := List.mem_iff_getElem?.mp hd
      have hlt := (List.getElem?_eq_some_iff.mp hk).1
      exact hx.inputs k (Nat.lt_of_lt_of_le hlt (List.getElem?_eq_none_iff.mp hend)) d hk
    case h_2 current hcurrent =>
      obtain ⟨as, has, hok⟩ := bind_eq_ok.mp hok
      split at hok
      case h_1 => cases pure_eq_ok.mp hok
      case h_2 z hz => exact ih (hx.step hcurrent has (addInputs_joins hz (List.mem_of_getElem? hcurrent))) hok

/-! ## Phis that give way to one value -/

def collapse (phis : List InstId) (v d : InstId) : InstId := if d ∈ phis then v else d

theorem collapse_of_mem (h : d ∈ phis) : collapse phis v d = v := if_pos h

theorem collapse_of_not_mem (h : d ∉ phis) : collapse phis v d = d := if_neg h

theorem instead_collapse : instead phi v (collapse phis v d) = collapse (phis ++ [phi]) v d := by
  unfold collapse
  by_cases hd : d ∈ phis
  · simp [hd]
  · simp [hd, instead]

theorem Image.exists_args (hi : Image g h ρ made) (hcount : Counts g h u) {m : Node} (hm : h.nodes[u.index]? = some m) :
    ∃ as : List InstId, m.inst.args = as.map ρ := by
  by_cases hlt : u.index < g.nodes.size
  · obtain ⟨o, ho⟩ : ∃ o, g.nodes[u.index]? = some o := ⟨_, Array.getElem?_eq_getElem hlt⟩
    exact ⟨o.inst.args, by rw [hi.wired.kept u o m hcount ho hm, Inst.args_mapArgs_const]⟩
  · have hmade := (hi.outline.created u).mpr ⟨Nat.not_lt.mp hlt, (Array.getElem?_eq_some_iff.mp hm).1⟩
    obtain ⟨l, hl⟩ := Option.isSome_iff_exists.mp hmade
    exact ⟨l.values, hi.wired.merged u l m hl hcount hm⟩

theorem collapse_image (hg : Definite g) (hi : Image g h ρ made) (hnodup : phis.Nodup)
    (hphis : ∀ d ∈ phis, (made d).isSome = true ∧ ρ d = d) (hv : Source g made v) (hfixed : ρ v = v) (hnot : v ∉ phis)
    (hblock : ∀ m, h.nodes[v.index]? = some m → g.nodes.size ≤ v.index → m.block ≠ none) :
    Threads True h p (phis.forM fun d => do
      Edit.replaceUses d v
      setReplacement d v) fun _ p' h' => p' = p ∧ Undisturbed g h h' ∧
        Image g h' (fun d => collapse phis v (ρ d)) made ∧ ∀ d, h'.isPlaced d = h.isPlaced d := by
  refine Threads.forM (fun done p' h' => p' = p ∧ Undisturbed g h h' ∧
    Image g h' (fun d => collapse done v (ρ d)) made ∧ ∀ d, h'.isPlaced d = h.isPlaced d)
    ⟨rfl, .refl, hi, fun _ => rfl⟩ ?_
  rintro done d rest _ h₁ hsplit ⟨rfl, hu₁, hi₁, hplaced₁⟩
  have hmem : d ∈ phis := by simp [hsplit]
  obtain ⟨hmade, hd⟩ := hphis d hmem
  have hdone : d ∉ done := fun hd => (List.nodup_append.mp (hsplit ▸ hnodup)).2.2 d hd d List.mem_cons_self rfl
  have hvdone : v ∉ done := fun hv => hnot (by simp [hsplit, hv])
  have hnew := ((hi.outline.created d).mp hmade).1
  obtain ⟨m, hm⟩ : ∃ m, h.nodes[v.index]? = some m := ⟨_, Array.getElem?_eq_getElem (hi.lt_size hg hv)⟩
  obtain ⟨m₁, hm₁, hsame₁⟩ := hu₁.exists_node hm
  simp only [Threads.bind_iff, Threads.lift_iff]
  refine (hi₁.replaceUses (.inr hnew) hm₁ fun hlt => (hsame₁ hlt).1 ▸ hblock m hm hlt).mono ?_
  rintro _ h₂ ⟨hs₂, hu₂, hw₂, hr₂⟩
  have hdfixed : collapse done v (ρ d) = d := by rw [hd, collapse_of_not_mem hdone]
  have hvfixed : collapse done v (ρ v) = v := by rw [hfixed, collapse_of_not_mem hvdone]
  refine (Image.setReplacement (hi₁.outline.congr hs₂) hw₂ hr₂ hv hdfixed hvfixed
    (fun r hr => hr₂.moved d r hmade hr hdfixed)
    (fun heval => absurd (hg.lt_size_of_evaluates heval) (Nat.not_lt.mpr hnew)) fun _ => ?_).mono ?_
  · rintro rfl
    exact hnot hmem
  rintro _ h₃ ⟨hs₃, hu₃, hi₃⟩
  refine ⟨trivial, (hu₁.trans hu₂).trans hu₃, ?_, fun j => ?_⟩
  · simpa only [instead_collapse] using hi₃
  · rw [← hplaced₁ j]
    unfold FlowGraph.isPlaced
    rw [hs₃.layout, hs₂.layout]

/-- The phis are no longer in their blocks, and the others that were made are where they were. -/
structure Discards (g : FlowGraph) (phis : List InstId) (p p' : Progress) (h h' : FlowGraph) : Prop where
  blocks : p'.blocks = p.blocks
  pending : ∀ d, d ∈ p'.pending ↔ d ∈ p.pending ∧ d ∉ phis
  placed : ∀ d, h'.isPlaced d = h.isPlaced d
  nodes : Changes h h' fun j m m' => g.nodes.size ≤ j.index → m'.inst.isAlivePhi = m.inst.isAlivePhi ∧
    m'.block = if j ∈ phis then none else m.block

theorem Discards.of_undisturbed {h₁ : FlowGraph} (hd : Discards g phis p p' h₁ h') (hu : Undisturbed g h h₁)
    (hplaced : ∀ d, h₁.isPlaced d = h.isPlaced d) : Discards g phis p p' h h' where
  blocks := hd.blocks
  pending := hd.pending
  placed d := (hd.placed d).trans (hplaced d)
  nodes := by
    refine ⟨hd.nodes.size.trans hu.size, fun j m' hm' => ?_⟩
    obtain ⟨m₁, hm₁, hsame₁⟩ := hd.nodes.node j m' hm'
    obtain ⟨m, hm, hsame⟩ := hu.node j m₁ hm₁
    refine ⟨m, hm, fun hlt => ?_⟩
    rw [(hsame₁ hlt).1, (hsame₁ hlt).2, (hsame hlt).1, (hsame hlt).2]
    exact ⟨rfl, rfl⟩

theorem discardPhi_image (hg : Definite g) (hi : Image g h ρ made) (hmade : (made phi).isSome = true) {m : Node}
    (hm : h.nodes[phi.index]? = some m) (hb : m.block ≠ none)
    (hunread : ∀ u n, u ≠ phi → Counts g h u → h.nodes[u.index]? = some n → phi ∉ n.inst.args) :
    Threads True h p (discardPhi phi) fun _ p' h' => Image g h' ρ made ∧ Discards g [phi] p p' h h' := by
  obtain ⟨l, hl⟩ := Option.isSome_iff_exists.mp hmade
  obtain ⟨b, hb⟩ := Option.ne_none_iff_exists'.mp hb
  unfold discardPhi
  simp only [Threads.bind_iff, Threads.lift_iff, Threads.modify_iff]
  refine (removePhi_image hi hl hm hb hg hunread).mono ?_
  rintro _ h₁ ⟨hi₁, hplaced, hchange⟩
  refine ⟨hi₁, rfl, fun d => by simp, hplaced, hchange.mono fun j o o' hc _ => ?_⟩
  rw [hc.1, hc.2]
  simp

theorem discardAll_image (hg : Definite g) (hi : Image g h ρ made) (hnodup : phis.Nodup)
    (hphis : ∀ d ∈ phis, (made d).isSome = true ∧ ∃ m, h.nodes[d.index]? = some m ∧ m.block ≠ none)
    (hunread : ∀ d ∈ phis, ∀ e, ρ e ≠ d) :
    Threads True h p (phis.forM discardPhi) fun _ p' h' => Image g h' ρ made ∧ Discards g phis p p' h h' := by
  refine Threads.forM (fun done p' h' => Image g h' ρ made ∧ Discards g done p p' h h')
    ⟨hi, rfl, fun d => by simp, fun _ => rfl, rfl, fun j m hm => ⟨m, hm, fun _ => ⟨rfl, by simp⟩⟩⟩ ?_
  rintro done d rest p₁ h₁ hsplit ⟨hi₁, hd₁⟩
  have hmem : d ∈ phis := by simp [hsplit]
  have hdone : d ∉ done := fun hd => (List.nodup_append.mp (hsplit ▸ hnodup)).2.2 d hd d List.mem_cons_self rfl
  obtain ⟨hmade, m, hm, hb⟩ := hphis d hmem
  obtain ⟨m₁, hm₁, hsame⟩ := hd₁.nodes.exists_node hm
  have hb₁ : m₁.block ≠ none := by
    rw [(hsame ((hi.outline.created d).mp hmade).1).2, if_neg hdone]
    exact hb
  refine (discardPhi_image hg hi₁ hmade hm₁ hb₁ fun u o _ hcount ho hread => ?_).mono ?_
  · obtain ⟨as, has⟩ := hi₁.exists_args hcount ho
    rw [has] at hread
    obtain ⟨e, -, heq⟩ := List.mem_map.mp hread
    exact hunread d hmem e heq
  rintro _ p₂ h₂ ⟨hi₂, hd₂⟩
  refine ⟨hi₂, hd₂.blocks.trans hd₁.blocks, fun j => ?_, fun j => (hd₂.placed j).trans (hd₁.placed j),
    hd₂.nodes.size.trans hd₁.nodes.size, fun j m' hm' => ?_⟩
  · rw [hd₂.pending, hd₁.pending, List.mem_append, not_or, and_assoc]
  · obtain ⟨o, ho, hsame₂⟩ := hd₂.nodes.node j m' hm'
    obtain ⟨o', ho', hsame₁⟩ := hd₁.nodes.node j o ho
    refine ⟨o', ho', fun hlt => ⟨(hsame₂ hlt).1.trans (hsame₁ hlt).1, ?_⟩⟩
    rw [(hsame₂ hlt).2, (hsame₁ hlt).2]
    by_cases hj : j = d <;> simp [hj]

/-! ## One phi after the other -/

/-- What holds while phis come to life or go away, with the phis `todo` still to be looked at. -/
structure Emitting (g : FlowGraph) (n : Numbering) (ρ : InstId → InstId) (made : InstId → Option Merge)
    (todo : List InstId) (p : Progress) (h : FlowGraph) : Prop where
  image : Image g h ρ made
  table : Table g n ρ made p
  gone : GoneBy g h n ρ (Known g n ρ made p)
  /-- A phi that gave way to another value only took that value. -/
  collapsed : ∀ d m, made d = some m → ρ d ≠ d → ∀ w ∈ m.values, ρ w = ρ d
  nodup : todo.Nodup
  pending : ∀ d ∈ p.pending, d ∈ todo ∧ (made d).isSome = true ∧ ∃ m, h.nodes[d.index]? = some m ∧ m.block ≠ none
  phis : ∀ d m, (made d).isSome = true → h.nodes[d.index]? = some m → m.block ≠ none →
    ρ d = d ∧ (d ∈ p.pending ∨ d ∉ todo ∧ m.inst.isAlivePhi = true)

namespace Emitting

theorem start (hc : Carried g n ρ made p h) : Emitting g n ρ made p.phis p h where
  image := hc.image
  table := hc.table
  gone := hc.gone
  collapsed d m hm hne := absurd (hc.unmoved d (by rw [hm]; rfl)) hne
  nodup := hc.waiting.nodup
  pending d hd := by
    obtain ⟨hlt, hsize⟩ := (hc.waiting.pending d).mp hd
    have hm : h.nodes[d.index]? = some h.nodes[d.index] := Array.getElem?_eq_getElem hsize
    exact ⟨(hc.waiting.phis d).mpr ⟨hlt, hsize⟩, (hc.image.outline.created d).mpr ⟨hlt, hsize⟩, _, hm,
      (hc.waiting.dead d _ hlt hm).1⟩
  phis d m hmade _ _ :=
    ⟨hc.unmoved d hmade, .inl ((hc.waiting.pending d).mpr ((hc.image.outline.created d).mp hmade))⟩

theorem discards (he : Emitting g n ρ made (phi :: todo) p h) (hi : Image g h' (fun d => τ (ρ d)) made)
    (hd : Discards g phis p p' h h') (hphi : phi ∈ phis) (hτ : ∀ d ∉ phis, τ d = d)
    (hcollapsed : ∀ d m, made d = some m → ρ d = d → τ d ≠ d → ∀ w ∈ m.values, τ (ρ w) = τ d) :
    Emitting g n (fun d => τ (ρ d)) made todo p' h' where
  image := hi
  table := he.table.mono (fun _ _ h => h) hd.blocks fun d m hm hnone => by
    rw [hnone] at hm
    cases hm
  gone := by
    intro b d hmem hgone
    obtain ⟨front, rest, m, k, place, hsplit, hm, hload, hplace, hknown⟩ := he.gone b d hmem (hd.placed d ▸ hgone)
    exact ⟨front, rest, m, k, place, hsplit, hm, hload, hplace, hknown.mono (fun _ _ h => h) (.of_blocks hd.blocks)⟩
  collapsed d m hm hne w hw := by
    by_cases hfixed : ρ d = d
    · rw [hfixed] at hne ⊢
      exact hcollapsed d m hm hfixed hne w hw
    · exact congrArg τ (he.collapsed d m hm hfixed w hw)
  nodup := (List.nodup_cons.mp he.nodup).2
  pending d hmem := by
    obtain ⟨hmem, hnot⟩ := (hd.pending d).mp hmem
    obtain ⟨htodo, hmade, m, hm, hb⟩ := he.pending d hmem
    obtain ⟨m', hm', hsame⟩ := hd.nodes.exists_node hm
    refine ⟨(List.mem_cons.mp htodo).resolve_left ?_, hmade, m', hm', ?_⟩
    · rintro rfl
      exact hnot hphi
    · rw [(hsame ((he.image.outline.created d).mp hmade).1).2, if_neg hnot]
      exact hb
  phis d m' hmade hm' hb := by
    obtain ⟨m, hm, hsame⟩ := hd.nodes.node d m' hm'
    obtain ⟨halive, hblock⟩ := hsame ((he.image.outline.created d).mp hmade).1
    have hnot : d ∉ phis := by
      intro hmem
      rw [hblock, if_pos hmem] at hb
      exact hb rfl
    rw [hblock, if_neg hnot] at hb
    obtain ⟨hfixed, hwhere⟩ := he.phis d m hmade hm hb
    refine ⟨by rw [hfixed, hτ d hnot], hwhere.imp (fun hmem => (hd.pending d).mpr ⟨hmem, hnot⟩) fun hwhere => ?_⟩
    exact ⟨fun hmem => hwhere.1 (List.mem_cons_of_mem phi hmem), halive ▸ hwhere.2⟩

section

variable (hg : Definite g) (he : Emitting g n ρ made (phi :: todo) p h)

include hg he

theorem discardPhi (hpending : phi ∈ p.pending) {m : Node} (hm : h.nodes[phi.index]? = some m)
    (huses : m.inputUses = []) : Threads True h p (discardPhi phi) fun _ p' h' => Emitting g n ρ made todo p' h' := by
  obtain ⟨-, hmade, m', hm', hb⟩ := he.pending phi hpending
  obtain rfl := Option.some_inj.mp (hm.symm.trans hm')
  refine (discardPhi_image hg he.image hmade hm hb fun u o _ hcount ho hread => ?_).mono ?_
  · obtain ⟨k, hk⟩ := List.mem_iff_getElem?.mp hread
    obtain ⟨l, hl, hlisted⟩ := he.image.wired.uses.listed u o k phi hcount ho hk
    obtain rfl := Option.some_inj.mp (hm.symm.trans hl)
    rw [huses] at hlisted
    cases hlisted
  rintro _ p₁ h₁ ⟨hi₁, hd₁⟩
  exact he.discards (τ := id) hi₁ hd₁ (List.mem_singleton_self phi) (fun _ _ => rfl) fun d _ _ _ hne => absurd rfl hne

omit hg in
theorem args_of_pending (hd : d ∈ p.pending) {m : Merge} (hm : made d = some m) {as : List InstId}
    (has : h.args d = .ok as) : as = m.values.map ρ ∧ Counts g h d := by
  obtain ⟨-, hmade, l, hl, hb⟩ := he.pending d hd
  have hcount : Counts g h d := .inr (.inr ⟨((he.image.outline.created d).mp hmade).1, l, hl, hb⟩)
  obtain ⟨l', hl', rfl⟩ := args_eq_ok.mp has
  obtain rfl := Option.some_inj.mp (hl.symm.trans hl')
  exact ⟨he.image.wired.merged d m l hm hcount hl, hcount⟩

theorem eliminate {c : Cluster} (hc : Closing h p.pending phi c)
    (hinputs : ∀ d ∈ c.phis, ∃ as, h.args d = .ok as ∧ ∀ a ∈ as, a ∈ c.phis ∨ a ∈ c.value) (hv : c.value = some v) :
    Threads True h p (do
      c.phis.forM fun d => do
        Edit.replaceUses d v
        setReplacement d v
      c.phis.forM Loads.discardPhi) fun _ p' h' => ∃ ρ', Emitting g n ρ' made todo p' h' := by
  obtain ⟨hsettled, d, hd, as, has, hread⟩ := hc.value v hv
  have hnot : v ∉ c.phis := fun hmem => hsettled (hc.members v hmem)
  have hphis : ∀ d ∈ c.phis, (made d).isSome = true ∧ ρ d = d := by
    intro d hd
    obtain ⟨-, hmade, m, hm, hb⟩ := he.pending d (hc.members d hd)
    exact ⟨hmade, (he.phis d m hmade hm hb).1⟩
  -- The value is an input of a phi that counts, so it is a definition that was not taken out.
  obtain ⟨m, hm⟩ := Option.isSome_iff_exists.mp (hphis d hd).1
  obtain ⟨rfl, hcount⟩ := he.args_of_pending (hc.members d hd) hm has
  obtain ⟨l, hl, hargs⟩ := args_eq_ok.mp has
  obtain ⟨w, hw, rfl⟩ := List.mem_map.mp hread
  have hsource := he.image.resolves.source ((he.table.merges d m hm).sources w hw)
  have hidem := he.image.resolves.idem w
  rw [Threads.bind_iff]
  refine (collapse_image hg he.image hc.nodup hphis hsource hidem hnot
    fun o ho hlt => he.image.wired.reads d l (ρ w) o hcount hl (hargs ▸ hread) hlt ho).mono ?_
  rintro _ _ h₁ ⟨rfl, hu₁, hi₁, hplaced₁⟩
  refine (discardAll_image hg hi₁ hc.nodup (fun e hmem => ?_) fun e hmem e' heq => ?_).mono ?_
  · obtain ⟨-, hmade, o, ho, hb⟩ := he.pending e (hc.members e hmem)
    obtain ⟨o₁, ho₁, hsame⟩ := hu₁.exists_node ho
    exact ⟨hmade, o₁, ho₁, (hsame ((he.image.outline.created e).mp hmade).1).1 ▸ hb⟩
  · unfold collapse at heq
    split at heq
    · exact hnot (heq ▸ hmem)
    case isFalse hfree => exact hfree (heq ▸ hmem)
  rintro _ p₂ h₂ ⟨hi₂, hd₂⟩
  refine ⟨_, he.discards hi₂ (hd₂.of_undisturbed hu₁ hplaced₁) hc.start (fun e hfree => collapse_of_not_mem hfree)
    fun e me hme hfixed hne u hu => ?_⟩
  have hmem : e ∈ c.phis := by
    by_contra hfree
    exact hne (collapse_of_not_mem hfree)
  obtain ⟨as, has, hall⟩ := hinputs e hmem
  obtain ⟨rfl, -⟩ := he.args_of_pending (hc.members e hmem) hme has
  rw [collapse_of_mem hmem]
  obtain hu | hu := hall (ρ u) (List.mem_map_of_mem hu)
  · exact collapse_of_mem hu
  · have hsame : ρ w = ρ u := Option.some_inj.mp (hv.symm.trans hu)
    rw [← hsame]
    exact collapse_of_not_mem hnot

omit hg in
theorem revivePhi (hpending : phi ∈ p.pending) :
    Threads True h p (do
      Edit.revivePhi phi
      modify fun p => { p with pending := p.pending.filter (· != phi) }) fun _ p' h' =>
        Emitting g n ρ made todo p' h' := by
  obtain ⟨-, hmade, -⟩ := he.pending phi hpending
  have hnot : phi ∉ todo := (List.nodup_cons.mp he.nodup).1
  simp only [Threads.bind_iff, Threads.lift_iff, Threads.modify_iff]
  refine (revivePhi_image he.image hmade).mono ?_
  rintro _ h₁ ⟨hi₁, hplaced, hchange⟩
  refine ⟨hi₁, he.table.mono (τ := id) (fun _ _ h => h) rfl fun d m hm hnone => ?_, he.gone.mono hplaced
    fun _ _ _ _ hknown => hknown.mono (τ := id) (fun _ _ h => h) (.of_blocks rfl), he.collapsed,
    (List.nodup_cons.mp he.nodup).2, fun d hd => ?_, fun d m' hd hm' hb => ?_⟩
  · rw [hnone] at hm
    cases hm
  · obtain ⟨hd, hne⟩ := List.mem_filter.mp hd
    obtain ⟨htodo, hd, m, hm, hb⟩ := he.pending d hd
    obtain ⟨m', hm', hblock, -⟩ := hchange.exists_node hm
    exact ⟨(List.mem_cons.mp htodo).resolve_left (by simpa using hne), hd, m', hm', hblock ▸ hb⟩
  · obtain ⟨m, hm, hblock, hinst⟩ := hchange.node d m' hm'
    obtain ⟨hfixed, hwhere⟩ := he.phis d m hd hm (hblock ▸ hb)
    refine ⟨hfixed, ?_⟩
    by_cases heq : d = phi
    · subst heq
      obtain ⟨l, hl⟩ := Option.isSome_iff_exists.mp hmade
      obtain ⟨as, alive, hform⟩ := he.image.wired.forms d l m hl hm
      rw [hinst, if_pos rfl, hform]
      exact .inr ⟨hnot, rfl⟩
    · rw [hinst, if_neg heq]
      refine hwhere.imp (fun hmem => List.mem_filter.mpr ⟨hmem, by simpa using heq⟩) fun hwhere => ?_
      exact ⟨fun hmem => hwhere.1 (List.mem_cons_of_mem phi hmem), hwhere.2⟩

omit hg in
theorem skip (hnot : ∀ m, h.nodes[phi.index]? = some m → m.block = none) : Emitting g n ρ made todo p h where
  image := he.image
  table := he.table
  gone := he.gone
  collapsed := he.collapsed
  nodup := (List.nodup_cons.mp he.nodup).2
  pending d hd := by
    obtain ⟨htodo, hmade, m, hm, hb⟩ := he.pending d hd
    refine ⟨(List.mem_cons.mp htodo).resolve_left ?_, hmade, m, hm, hb⟩
    rintro rfl
    exact hb (hnot m hm)
  phis d m hmade hm hb := by
    obtain ⟨hfixed, hwhere⟩ := he.phis d m hmade hm hb
    exact ⟨hfixed, hwhere.imp_right fun hwhere => ⟨fun hmem => hwhere.1 (List.mem_cons_of_mem phi hmem), hwhere.2⟩⟩

theorem eliminateRedundant (hpending : phi ∈ p.pending) :
    Threads True h p (eliminateRedundant phi) fun r p' h' =>
      r = true ∧ (∃ ρ', Emitting g n ρ' made todo p' h') ∨ r = false ∧ p' = p ∧ h' = h := by
  unfold Loads.eliminateRedundant
  simp only [Threads.bind_iff, Threads.get_iff, Threads.getThe_iff, Threads.read_iff]
  refine Yields.of_ok fun r hr => ?_
  split
  case h_1 phis position v =>
    obtain ⟨hc, hinputs⟩ := closeCluster_of_ok (.start_single hpending) hr
    have heliminate := he.eliminate hg hc hinputs rfl
    rw [Threads.bind_iff] at heliminate ⊢
    refine heliminate.mono fun _ p₁ h₁ hdiscard => ?_
    rw [Threads.bind_iff]
    exact hdiscard.mono fun _ _ _ h => .inl ⟨rfl, h⟩
  case h_2 => exact .inr ⟨rfl, rfl, rfl⟩

theorem emitPhi (hmade : (made phi).isSome = true) :
    Threads True h p (emitPhi phi) fun _ p' h' => ∃ ρ', Emitting g n ρ' made todo p' h' := by
  unfold Loads.emitPhi
  rw [Threads.bind_iff, Threads.getThe_iff, Threads.bind_iff, Threads.read_iff]
  refine Yields.of_ok fun b hb => ?_
  obtain ⟨m, hm, rfl⟩ := instBlock_eq_ok.mp hb
  rw [Threads.ite_iff]
  refine ⟨fun hnone => ⟨ρ, he.skip fun m' hm' => ?_⟩, fun hsome => ?_⟩
  · obtain rfl := Option.some_inj.mp (hm.symm.trans hm')
    simpa using hnone
  have hpending : phi ∈ p.pending :=
    ((he.phis phi m hmade hm (by simpa using hsome)).2).resolve_right fun h => h.1 List.mem_cons_self
  rw [Threads.bind_iff, Threads.read_iff]
  refine Yields.of_ok fun used hused => ?_
  obtain ⟨m', hm', hused⟩ := bind_eq_ok.mp hused
  obtain rfl := Option.some_inj.mp (hm.symm.trans (node_eq_ok.mp hm'))
  obtain rfl := pure_eq_ok.mp hused
  rw [Threads.ite_iff]
  refine ⟨fun hunused => (he.discardPhi hg hpending hm ?_).mono fun _ _ _ h => ⟨ρ, h⟩, fun _ => ?_⟩
  · simp only [Bool.not_eq_true', Bool.or_eq_false_iff, Bool.not_eq_false', List.isEmpty_iff] at hunused
    exact hunused.1
  rw [Threads.bind_iff]
  refine (he.eliminateRedundant hg hpending).mono ?_
  rintro r p₁ h₁ (⟨rfl, hemitting⟩ | ⟨rfl, rfl, rfl⟩)
  · exact hemitting
  · exact (he.revivePhi hpending).mono fun _ _ _ h => ⟨ρ, h⟩

end

theorem emitAll (hg : Definite g) (he : Emitting g n ρ made todo p h) (hmade : ∀ d ∈ todo, (made d).isSome = true) :
    Threads True h p (todo.forM Loads.emitPhi) fun _ p' h' => ∃ ρ', Emitting g n ρ' made [] p' h' := by
  induction todo generalizing ρ p h with
  | nil => exact ⟨ρ, he⟩
  | cons phi todo ih =>
    rw [List.forM, Threads.bind_iff]
    refine (he.emitPhi hg (hmade phi List.mem_cons_self)).mono ?_
    rintro _ p₁ h₁ ⟨ρ₁, he₁⟩
    exact ih he₁ fun d hd => hmade d (List.mem_cons_of_mem phi hd)

end Emitting

/-- What the elimination of loads leaves. -/
theorem forwardAll_emits (hg : Definite g) (hn : Numbers g n) :
    Threads True g {} (forwardAll n) fun _ p' h' => ∃ ρ made, Emitting g n ρ made [] p' h' := by
  unfold forwardAll
  rw [Threads.bind_iff, Threads.getThe_iff, Threads.bind_iff]
  refine (Walked.visitAll hg hn).mono ?_
  rintro _ p₁ h₁ ⟨⟨ρ₁, hw₁⟩, -⟩
  rw [Threads.bind_iff]
  refine ((Carried.start hg hw₁).settle hg _ _).mono ?_
  rintro _ p₂ h₂ ⟨made₂, hc₂⟩
  rw [Threads.bind_iff]
  refine (Threads.forM_of_forall (fun p' h' => ∃ ρ' made', Carried g n ρ' made' p' h') ⟨ρ₁, made₂, hc₂⟩
    fun b _ p' h' ⟨ρ', made', hc'⟩ => hc'.forwardBlock hg hn b).mono ?_
  rintro _ p₃ h₃ ⟨ρ₃, made₃, hc₃⟩
  rw [Threads.bind_iff, Threads.get_iff]
  refine ((Emitting.start hc₃).emitAll hg fun d hd => ?_).mono fun _ _ _ ⟨ρ₄, he₄⟩ => ⟨ρ₄, made₃, he₄⟩
  exact (hc₃.image.outline.created d).mpr ((hc₃.waiting.phis d).mp hd)

end Midend.Loads
