import Midend.Proofs.Constants.Transform
import Midend.Proofs.Execution.Definite
import Midend.SmallIntegers

/-! # Classes that reach phi inputs

A class that is known to reach an input is recorded for the position of the input. The transformation drops inputs of
phis, and what is recorded stays at its position. So it stays with its input only as long as no predecessor in front
goes away.
-/

namespace Midend

open Execution Ssa

/-! ## Edits that keep predecessors -/

namespace FlowGraph

variable {g g' g'' : FlowGraph}

/-- Predecessors stay, no phi is added to a block, and no class is recorded for a use that had another or none. -/
structure Quiet (g g' : FlowGraph) : Prop where
  preds : ∀ b, predsOf g' b = predsOf g b
  phis : ∀ b, phisOf g' b ⊆ phisOf g b
  reaching : ∀ u c, g'.reachingClass? u = some c → g.reachingClass? u = some c

namespace Quiet

theorem of_eq (hblocks : g'.blocks = g.blocks) (hreaching : g'.reaching = g.reaching) : Quiet g g' where
  preds b := by rw [predsOf, predsOf, hblocks]
  phis b := by
    rw [phisOf, phisOf, hblocks]
    exact List.Subset.refl _
  reaching u c := by
    rw [reachingClass?, hreaching]
    exact id

theorem refl (g : FlowGraph) : Quiet g g := of_eq rfl rfl

theorem trans (h : Quiet g g') (h' : Quiet g' g'') : Quiet g g'' where
  preds b := (h'.preds b).trans (h.preds b)
  phis b := List.Subset.trans (h'.phis b) (h.phis b)
  reaching u c hc := h.reaching u c (h'.reaching u c hc)

end Quiet

theorem Quiet.frame : Frame Quiet where
  refl := .refl
  trans := .trans
  nodes _ := .of_eq rfl rfl
  numbered _ _ := .of_eq rfl rfl

end FlowGraph

namespace Leads

open FlowGraph

variable {g : FlowGraph} {i j : InstId} {b : BlockId}

theorem quiet_replaceUses : Leads True g (Edit.replaceUses i j) fun _ g' => Quiet g g' := by
  refine replaceUses_of_ok.mono ?_
  rintro _ _ (⟨-, rfl⟩ | ⟨n, -, rfl⟩)
  · exact .refl _
  · refine ⟨fun _ => rfl, fun _ => List.Subset.refl _, fun u c hc => ?_⟩
    rw [redirected, reachingClass?_forgetUses] at hc
    split at hc
    · cases hc
    · exact hc

theorem quiet_remove : Leads True g (Edit.remove i) fun _ g' => Quiet g g' := by
  refine remove_of_ok.mono ?_
  rintro _ _ ⟨n, b, -, -, rfl⟩
  exact .of_eq rfl rfl

theorem quiet_insertBefore : Leads True g (Edit.insertBefore j i) fun _ g' => Quiet g g' := by
  unfold Edit.insertBefore Edit.setBlock
  rw [bind_iff, onLayout_iff]
  refine Yields.of_ok fun l _ => ?_
  have hlayout : Quiet g (g.withLayout l) := .of_eq rfl rfl
  rw [bind_iff, get_iff, bind_iff, lift_iff]
  refine Yields.of_ok fun m _ => ?_
  rw [bind_iff]
  refine Leads.mono (Quiet.frame.modifyNode ?_) fun _ g₁ h₁ => Quiet.frame.addUses.mono fun _ g₂ h₂ => ?_
  · exact fun _ => rfl
  · exact (hlayout.trans h₁).trans h₂

theorem quiet_append : Leads True g (Edit.append b i) fun _ g' => Quiet g g' := by
  unfold Edit.append Edit.link Edit.setBlock
  rw [bind_iff, bind_iff, onLayout_iff]
  refine Yields.of_ok fun l _ => ?_
  have hlayout : Quiet g (g.withLayout l) := .of_eq rfl rfl
  refine Leads.mono (Quiet.frame.modifyNode ?_) fun _ g₁ h₁ => Quiet.frame.addUses.mono fun _ g₂ h₂ => ?_
  · exact fun _ => rfl
  · exact (hlayout.trans h₁).trans h₂

theorem quiet_modifyBlock {f : Block → Block} (hpreds : ∀ k, (f k).preds = k.preds) (hphis : ∀ k, (f k).phis ⊆ k.phis) :
    Leads True g (Edit.modifyBlock b f) fun _ g' => Quiet g g' := by
  rw [modifyBlock_iff]
  refine ⟨fun _ => ⟨fun c => ?_, fun c => ?_, fun _ _ hc => hc⟩, fun _ => trivial⟩
  · unfold predsOf
    rw [blocks_withBlock]
    cases g.blocks[c.index]? with
    | none => rfl
    | some k => by_cases hc : c = b <;> simp [hc, hpreds]
  · unfold phisOf
    rw [blocks_withBlock]
    cases g.blocks[c.index]? with
    | none => exact List.Subset.refl _
    | some k => by_cases hc : c = b <;> simp [hc, hphis]

theorem quiet_removePhi : Leads True g (Edit.removePhi i) fun _ g' => Quiet g g' := by
  have hrest (g₁ : FlowGraph) (h₁ : Quiet g g₁) : Leads True g₁ (do
      Edit.dropInputUses i
      Edit.dropEnvUses i
      Edit.setBlock i none) fun _ g' => Quiet g g' := by
    unfold Edit.setBlock
    rw [bind_iff]
    refine Quiet.frame.dropInputUses.mono fun _ g₂ h₂ => ?_
    rw [bind_iff]
    refine Quiet.frame.dropEnvUses.mono fun _ g₃ h₃ => Leads.mono (Quiet.frame.modifyNode ?_) fun _ _ h₄ => ?_
    · exact fun _ => rfl
    · exact ((h₁.trans h₂).trans h₃).trans h₄
  unfold Edit.removePhi
  rw [bind_iff, get_iff, bind_iff, lift_iff]
  refine Yields.of_ok fun n _ => ?_
  cases n.block with
  | none => exact hrest g (.refl g)
  | some b =>
    rw [bind_iff]
    refine Leads.mono (quiet_modifyBlock ?_ ?_) fun _ g₁ h₁ => hrest g₁ h₁
    · exact fun _ => rfl
    · exact fun k => List.filter_sublist.subset

end Leads

namespace Flow

variable {g : FlowGraph}

theorem quiet_computeDominators : Leads True g computeDominators fun _ g' => g.Quiet g' := by
  unfold computeDominators
  rw [Leads.bind_iff, Leads.get_iff, Leads.bind_iff, Leads.lift_iff]
  refine Yields.of_ok fun preds _ => ?_
  rw [Leads.bind_iff]
  refine (Leads.forM_of_forall g.Quiet (.refl g) fun b _ g₁ h₁ => ?_).mono fun _ g₂ h₂ => ?_
  · refine Leads.mono (Leads.quiet_modifyBlock ?_ ?_) fun _ _ h => h₁.trans h
    · exact fun _ => rfl
    · exact fun k => List.Subset.refl _
  rw [Leads.bind_iff]
  refine (Leads.forM_of_forall g.Quiet h₂ fun ⟨b, n⟩ _ g₃ h₃ => ?_).mono fun _ g₄ h₄ => h₄
  dsimp only
  cases (dominatorTree preds g.parents)[n]?.join with
  | some d =>
    unfold setDominator
    rw [Leads.bind_iff, Leads.get_iff, Leads.bind_iff, Leads.lift_iff]
    refine Yields.of_ok fun dom _ => ?_
    rw [Leads.bind_iff]
    refine Leads.mono (Leads.quiet_modifyBlock ?_ ?_) fun _ g₄ h₄ =>
      Leads.mono (Leads.quiet_modifyBlock ?_ ?_) fun _ g₅ h₅ => (h₃.trans h₄).trans h₅
    all_goals first | exact fun _ => rfl | exact fun k => List.Subset.refl _
  | none => exact h₃

end Flow

/-! ## The transformation -/

namespace Constants

open FlowGraph Midend.Flow

variable {g g' h : FlowGraph} {f : Facts} {b c p : BlockId} {i d : InstId}

theorem quiet_rematerializeAll {blocks : List BlockId} :
    Leads True h (rematerializeAll f blocks) fun _ h' => h.Quiet h' := by
  unfold rematerializeAll
  refine Leads.anyChange_of_forall _ (.refl h) fun b _ h₁ q₁ => ?_
  rw [Leads.bind_iff, Leads.get_iff]
  refine Leads.anyChange_of_forall _ q₁ fun i _ h₂ q₂ => ?_
  unfold rematerialize
  cases cheapValue? f i with
  | none => exact q₂
  | some c =>
    dsimp only
    rw [Leads.bind_iff, Leads.get_iff, Leads.bind_iff, Leads.lift_iff]
    refine Yields.of_ok fun op _ => ?_
    split
    · exact q₂
    rw [Leads.bind_iff, Leads.addInst_iff, Leads.bind_iff]
    have q₃ : h.Quiet (h₂.withInst { inst := .constant c }) := q₂.trans (.of_eq rfl rfl)
    refine Leads.quiet_insertBefore.mono fun _ h₄ q₄ => ?_
    rw [Leads.bind_iff]
    refine Quiet.frame.ensureSsaIndex.mono fun _ h₅ q₅ => ?_
    rw [Leads.bind_iff]
    refine Leads.quiet_replaceUses.mono fun _ h₆ q₆ => ?_
    rw [Leads.bind_iff]
    exact Leads.quiet_remove.mono fun _ h₇ q₇ => (((q₃.trans q₄).trans q₅).trans q₆).trans q₇

theorem quiet_compactPhis : Leads True h (compactPhis f b) fun _ h' => h.Quiet h' := by
  unfold compactPhis
  rw [Leads.bind_iff, Leads.get_iff, Leads.bind_iff, Leads.lift_iff]
  refine Yields.of_ok fun join _ => ?_
  split
  · exact .refl h
  rw [Leads.bind_iff, Leads.lift_iff]
  refine Yields.of_ok fun preds _ => ?_
  rw [Leads.bind_iff, Leads.lift_iff]
  refine Yields.of_ok fun phis _ => ?_
  refine Leads.filterM_of_forall h.Quiet (.refl h) fun phi _ h₁ q₁ => ?_
  have hrest (h₂ : FlowGraph) (q₂ : h.Quiet h₂) :
      Leads True h₂ (do return decide ((← (← get).args phi).length ≤ 1)) fun _ h' => h.Quiet h' := by
    rw [Leads.bind_iff, Leads.get_iff, Leads.bind_iff, Leads.lift_iff]
    exact Yields.of_ok fun _ _ => q₂
  split
  case isFalse => exact hrest h₁ q₁
  case isTrue =>
    unfold keepInputs
    rw [Leads.bind_iff, Leads.bind_iff, Leads.get_iff, Leads.bind_iff, Leads.lift_iff]
    refine Yields.of_ok fun e _ => ?_
    split
    case h_2 => exact hrest h₁ q₁
    case h_1 slot inputs alive representation =>
      rw [Leads.bind_iff, Leads.mapM_lift_iff]
      refine Yields.of_ok fun kept _ => ?_
      unfold Edit.setInst
      rw [Leads.modifyNode_iff]
      exact ⟨fun _ => hrest _ (q₁.trans (.of_eq rfl rfl)), fun _ => trivial⟩

theorem quiet_straighten : Leads True h (straighten f b) fun _ h' => h.Quiet h' := by
  unfold straighten
  rw [Leads.bind_iff, Leads.get_iff]
  cases h.lastInst b with
  | none => exact .refl h
  | some last =>
    dsimp only
    rw [Leads.bind_iff, Leads.lift_iff]
    refine Yields.of_ok fun e _ => ?_
    split
    · exact .refl h
    rw [Leads.bind_iff, Leads.lift_iff]
    refine Yields.of_ok fun onTrue _ => ?_
    rw [Leads.bind_iff, Leads.lift_iff]
    refine Yields.of_ok fun onFalse _ => ?_
    cases onlyWay? f onTrue onFalse with
    | none => exact .refl h
    | some target =>
      dsimp only
      unfold replaceByJump
      rw [Leads.bind_iff, Leads.bind_iff, Leads.addInst_iff, Leads.bind_iff]
      have q₁ : h.Quiet (h.withInst { inst := .goto target }) := .of_eq rfl rfl
      refine Quiet.frame.copyDeoptTarget.mono fun _ h₂ q₂ => ?_
      rw [Leads.bind_iff]
      refine Leads.quiet_remove.mono fun _ h₃ q₃ => ?_
      rw [Leads.bind_iff]
      refine Leads.quiet_append.mono fun _ h₄ q₄ => ?_
      refine Leads.mono (Leads.quiet_modifyBlock ?_ ?_) fun _ h₅ q₅ => (((q₁.trans q₂).trans q₃).trans q₄).trans q₅
      · exact fun _ => rfl
      · exact fun k => List.Subset.refl _

theorem quiet_cutEdges {blocks : List BlockId} : Leads True h (cutEdges f blocks) fun _ h' => h.Quiet h' := by
  unfold cutEdges
  refine Leads.foldlM (fun _ _ h' => h.Quiet h') (.refl h) fun _ b _ r h₁ _ q₁ => ?_
  obtain ⟨changed, redundant⟩ := r
  dsimp only
  split
  · exact q₁
  rw [Leads.bind_iff]
  refine quiet_compactPhis.mono fun _ h₂ q₂ => ?_
  rw [Leads.bind_iff]
  exact quiet_straighten.mono fun _ h₃ q₃ => (q₁.trans q₂).trans q₃

theorem quiet_dropRedundant : Leads True h (dropRedundant i) fun _ h' => h.Quiet h' := by
  unfold dropRedundant
  rw [Leads.bind_iff, Leads.get_iff, Leads.bind_iff, Leads.lift_iff]
  refine Yields.of_ok fun as _ => ?_
  cases as.head? with
  | none => exact .refl h
  | some input =>
    dsimp only
    rw [Leads.bind_iff]
    refine Leads.quiet_replaceUses.mono fun _ h₁ q₁ => ?_
    rw [Leads.bind_iff]
    exact Leads.quiet_removePhi.mono fun _ h₂ q₂ => q₁.trans q₂

/-- The graph is transformed to `h`, its blocks are discovered anew, and after that neither code nor predecessors
change. -/
structure Rediscovered (g : FlowGraph) (f : Facts) (g' h : FlowGraph) (t : Tour) : Prop where
  transformed : Transformed g f h
  quiet : g.Quiet h
  tour : Touring h t []
  inOrder : PredsInOrder (onTour h t)
  same : (onTour h t).SameCode g'
  still : (onTour h t).Quiet g'

theorem leads_transform_rediscovered (hform : SsaForm g) (hsettles : Settles g f) :
    Leads True g (transform f) fun _ g' => ∃ h t, Rediscovered g f g' h t := by
  unfold transform
  rw [Leads.bind_iff, Leads.get_iff, Leads.bind_iff]
  refine ((leads_rematerializeAll hsettles (.refl hform)).and quiet_rematerializeAll).mono ?_
  rintro _ h₁ ⟨ht₁, q₁⟩
  rw [Leads.bind_iff]
  refine ((leads_cutEdges ht₁).and quiet_cutEdges).mono ?_
  rintro ⟨cut, redundant⟩ h₂ ⟨ht₂, q₂⟩
  dsimp only
  rw [Leads.bind_iff]
  refine ((leads_discover (.inl trivial)).and leads_discover_inOrder).mono ?_
  rintro _ _ ⟨⟨t, rfl, ht⟩, hordered⟩
  rw [Leads.bind_iff, Leads.discard_iff]
  refine (code_computeDominators.and quiet_computeDominators).mono ?_
  rintro _ h₄ ⟨s₄, q₄⟩
  rw [Leads.bind_iff]
  refine (SameCode.frame.computeUseLists.and Quiet.frame.computeUseLists).mono ?_
  rintro _ h₅ ⟨s₅, q₅⟩
  rw [Leads.bind_iff]
  refine (Leads.anyChange_of_forall (fun h => (onTour h₂ t).SameCode h ∧ (onTour h₂ t).Quiet h)
    ⟨s₄.trans s₅, q₄.trans q₅⟩ fun phi _ h₆ q₆ => ?_).mono fun _ g' hg' => ?_
  · exact (code_dropRedundant.and quiet_dropRedundant).mono fun _ h₇ q₇ => ⟨q₆.1.trans q₇.1, q₆.2.trans q₇.2⟩
  · exact ⟨h₂, t, ht₂, q₁.trans q₂, ht, hordered, hg'.1, hg'.2⟩

theorem leads_propagateConstants (hform : SsaForm g) :
    Leads True g propagateConstants fun _ g' => ∃ f h t, Settles g f ∧ Rediscovered g f g' h t := by
  unfold propagateConstants
  rw [Leads.bind_iff, Leads.get_iff, Leads.bind_iff, Leads.lift_iff]
  refine Yields.of_ok fun f hf => ?_
  have hsettles := analyze_settles hform hf
  exact (leads_transform_rediscovered hform hsettles).mono fun _ g' ⟨h, t, hr⟩ => ⟨f, h, t, hsettles, hr⟩

/-! ## Predecessors that are left -/

theorem eq_of_onlyWay? {onTrue onFalse target : BlockId} (hway : onlyWay? f onTrue onFalse = some target) :
    target = onTrue ∨ target = onFalse := by
  unfold onlyWay? at hway
  split at hway
  case h_1 => exact .inl (Option.some_inj.mp hway).symm
  case h_2 => exact .inr (Option.some_inj.mp hway).symm
  case h_3 => cases hway

theorem Transformed.next_eq (hform : SsaForm g) (hsettles : Settles g f) (ht : Transformed g f h) (hb : g.Reachable b) :
    h.next b = g.next b ∨ ∃ i n cmp onTrue onFalse target, g.lastInst b = some i ∧ g.nodes[i.index]? = some n ∧
      n.inst = .branch cmp onTrue onFalse ∧ g.next b = [onTrue, onFalse] ∧ (target = onTrue ∨ target = onFalse) ∧
      h.next b = [target] := by
  by_cases hne : b = FlowGraph.graphEntry
  · subst hne
    have hnext (g : FlowGraph) : g.next FlowGraph.graphEntry = FlowGraph.normalEntry :: g.catchEntries :=
      FlowGraph.next_of_ok (by simp [FlowGraph.succs]; rfl)
    left
    rw [hnext, hnext, ht.catchEntries]
  obtain ⟨last, hlast, hall⟩ := (hform.block_holds hb).insts hne
  obtain ⟨n, hn, hholds⟩ := hall last (List.mem_of_getLast? hlast)
  obtain ⟨j, hj, hbecomes⟩ := forall₂_getLast? (ht.insts b hb hne) hlast
  cases hbecomes with
  | kept =>
    left
    rw [next_of_codeOf hne hlast (codeOf_eq hn), next_of_codeOf hne hj (ht.code _ _ (codeOf_eq hn))]
  | made hvalue =>
    -- a terminator has no value that could be known
    obtain ⟨m, hm, hterm⟩ := hsettles.recorded last (by rw [hvalue]; exact Knowledge.noConfusion)
    obtain rfl := Option.some_inj.mp (hn.symm.trans hm)
    rw [hholds.terminates.mpr rfl] at hterm
    cases hterm
  | @straightened _ cmp onTrue onFalse target hbranch hway _ hcode =>
    right
    have hbare : n.inst.bare = .branch cmp onTrue onFalse := Option.some_inj.mp ((codeOf_eq hn).symm.trans hbranch)
    obtain ⟨cmp', hinst⟩ : ∃ cmp', n.inst = .branch cmp' onTrue onFalse := by
      cases hd : n.inst with
      | branch c t e =>
        rw [hd] at hbare
        obtain ⟨-, rfl, rfl⟩ := Inst.branch.inj hbare
        exact ⟨c, rfl⟩
      | _ => simp [hd, Inst.bare, Inst.mapArgs] at hbare
    refine ⟨last, n, cmp', onTrue, onFalse, target, hlast, hn, hinst, ?_, eq_of_onlyWay? hway, ?_⟩
    · rw [next_of_codeOf hne hlast hbranch]
      rfl
    · rw [next_of_codeOf hne hj hcode]
      rfl

theorem Transformed.reachable (hform : SsaForm g) (hsettles : Settles g f) (ht : Transformed g f h)
    (hb : h.Reachable b) : g.Reachable b := by
  induction hb with
  | refl => exact .refl
  | @tail b c _ hedge ih =>
    refine ih.tail ?_
    unfold FlowGraph.Edge at *
    obtain heq | ⟨i, n, cmp, onTrue, onFalse, target, -, -, -, hnext, htarget, heq⟩ := ht.next_eq hform hsettles ih
    · rwa [heq] at hedge
    · rw [heq, List.mem_singleton] at hedge
      rw [hnext, hedge]
      simpa using htarget

theorem Transformed.count_next (hform : SsaForm g) (hsettles : Settles g f) (ht : Transformed g f h)
    (hp : g.Reachable p) (hphi : d ∈ phisOf g b) : (h.next p).count b = (g.next p).count b := by
  obtain heq | ⟨i, n, cmp, onTrue, onFalse, target, hlast, hn, hinst, hnext, htarget, heq⟩ :=
    ht.next_eq hform hsettles hp
  · rw [heq]
  · -- a branch goes to no join
    obtain ⟨k, hk, hmem⟩ := exists_of_mem_phisOf hphi
    have hjoin := hform.joins b k hk (List.ne_nil_of_mem hmem)
    have hnot : b ∉ [onTrue, onFalse] := by
      intro hb
      have hgoto := hform.gotos p b i n k hp hlast hn (by rwa [hinst]) hk hjoin
      rw [hinst] at hgoto
      cases hgoto
    have hnot' : b ∉ [target] := by
      simp only [List.mem_cons, List.not_mem_nil, or_false, not_or] at hnot ⊢
      rintro rfl
      exact htarget.elim hnot.1 hnot.2
    rw [hnext, heq, List.count_eq_zero.mpr hnot, List.count_eq_zero.mpr hnot']

theorem predsOf_onTour {t : Tour} (hb : b ∈ t.preorder) : predsOf (onTour h t) b = t.preds b := by
  unfold predsOf Tour.preds
  rw [if_pos hb]
  rfl

theorem inKeyOrder_preds {t : Tour} (ht : Touring h t []) (hordered : PredsInOrder (onTour h t)) (hb : b ∈ t.preorder) :
    InKeyOrder (t.preds b) := by
  obtain ⟨k, hk⟩ := ht.exists_block (ht.inRange b hb)
  rw [Tour.preds, if_pos hb, hk]
  exact hordered b k hk ((ht.mem_preorder_iff hk).mp hb)

theorem count_preds_tour {t : Tour} (ht : Touring h t []) (p b : BlockId) :
    (t.preds b).count p = if p ∈ t.preorder then (h.next p).count b else 0 := by
  split
  case isTrue hp => exact ht.count_preds hp
  case isFalse hp => exact List.count_eq_zero.mpr fun hmem => hp (ht.known b p hmem)

theorem exists_tour_of_upToDate (hg : g.UpToDate) :
    ∃ t, Touring g t [] ∧ PredsInOrder (onTour g t) ∧ ∀ b ∈ t.preorder, predsOf g b = t.preds b := by
  obtain ⟨frontier, g', hrun, horders⟩ := hg
  have hleads : Leads True g (discover >>= fun _ => computeDominators) fun _ g' =>
      ∃ t, Touring g t [] ∧ PredsInOrder (onTour g t) ∧ (onTour g t).Quiet g' := by
    rw [Leads.bind_iff]
    refine ((leads_discover (.inl trivial)).and leads_discover_inOrder).mono ?_
    rintro _ _ ⟨⟨t, rfl, ht⟩, hordered⟩
    exact quiet_computeDominators.mono fun _ _ hquiet => ⟨t, ht, hordered, hquiet⟩
  obtain ⟨t, ht, hordered, hquiet⟩ := hleads.post_of_ok hrun
  refine ⟨t, ht, hordered, fun b hb => ?_⟩
  rw [← predsOf_onTour (h := g) hb, ← hquiet.preds b]
  have hblocks := congrArg (fun l => (l[b.index]?).map Prod.fst) (Prod.mk.inj horders).2
  simp only [Array.getElem?_toList, List.getElem?_map, Option.map_map] at hblocks
  exact congrArg (·.getD []) hblocks.symm

theorem isAlivePhi_bare (e : Inst) : e.bare.isAlivePhi = e.isAlivePhi := by cases e <;> rfl

namespace Rediscovered

variable {t : Tour}

theorem mem_order_iff (hr : Rediscovered g f g' h t) : b ∈ g'.reversePostorder ↔ b ∈ t.preorder := by
  rw [reversePostorder, List.mem_reverse, hr.same.postorder]
  exact hr.tour.opened.mem_iff

theorem livePhi (hr : Rediscovered g f g' h t) (hform : SsaForm g) (hphi : LivePhi g' b d) : LivePhi g b d := by
  have htour : phisOf (onTour h t) b ⊆ phisOf h b := by
    intro phi hmem
    obtain ⟨k, hk, hmem⟩ := exists_of_mem_phisOf hmem
    obtain ⟨k', hk', -, hphis, -⟩ := hr.tour.kept b k hk
    rw [phisOf_eq hk', ← hphis]
    exact hmem
  have hmem : d ∈ phisOf g b := hr.quiet.phis b (htour (hr.still.phis b hphi.1))
  refine ⟨hmem, ?_⟩
  -- what a phi is apart from its inputs has not changed
  obtain ⟨n, hn, -⟩ := hform.phis b d hmem
  obtain ⟨m, hm, halive⟩ := aliveIn_iff.mp hphi.2
  have hcode : g'.codeOf d = g.codeOf d :=
    (hr.same.code d).trans ((hr.transformed.code d _ (codeOf_eq hn)).trans (codeOf_eq hn).symm)
  rw [codeOf_eq hm, codeOf_eq hn, Option.some_inj] at hcode
  rw [aliveIn_eq hn, ← isAlivePhi_bare, ← hcode, isAlivePhi_bare, halive]

theorem preds_eq (hr : Rediscovered g f g' h t) (hform : SsaForm g) (hfresh : g.UpToDate) (hsettles : Settles g f)
    (hb : b ∈ t.preorder) (hphi : d ∈ phisOf g b) :
    predsOf g' b = (predsOf g b).filter (· ∈ g'.reversePostorder) := by
  have hreach {p : BlockId} (hp : p ∈ t.preorder) : g.Reachable p :=
    hr.transformed.reachable hform hsettles (hr.tour.mem_preorder_iff_reachable.mp hp)
  obtain ⟨t₀, ht₀, hordered₀, hpreds₀⟩ := exists_tour_of_upToDate hfresh
  have hb₀ : b ∈ t₀.preorder := ht₀.mem_preorder_iff_reachable.mpr (hreach hb)
  rw [hr.still.preds, predsOf_onTour hb, hpreds₀ b hb₀]
  refine (inKeyOrder_preds hr.tour hr.inOrder hb).eq_of_count ((inKeyOrder_preds ht₀ hordered₀ hb₀).filter _) fun p =>
    ?_
  rw [count_preds_tour hr.tour]
  split
  case isTrue hp =>
    rw [List.count_filter (by simpa using hr.mem_order_iff.mpr hp),
      ht₀.count_preds (ht₀.mem_preorder_iff_reachable.mpr (hreach hp)),
      hr.transformed.count_next hform hsettles (hreach hp) hphi]
  case isFalse hp =>
    refine (List.count_eq_zero.mpr fun hmem => hp (hr.mem_order_iff.mp ?_)).symm
    simpa using (List.mem_filter.mp hmem).2

end Rediscovered

theorem getElem?_filter_of_take {l : List BlockId} {q : BlockId → Bool} {k : Nat}
    (hq : ∀ p ∈ l.take (k + 1), q p = true) : (l.filter q)[k]? = l[k]? := by
  conv_lhs => rw [← List.take_append_drop (k + 1) l, List.filter_append, List.filter_eq_self.mpr hq]
  obtain hlt | hge := Nat.lt_or_ge k l.length
  · rw [List.getElem?_append_left (by simp; omega), List.getElem?_take_of_lt (Nat.lt_succ_self k)]
  · rw [List.drop_of_length_le (by omega), List.take_of_length_le (by omega)]
    simp

/-- A class that is recorded for input `k` of the phi was recorded for its input from the same predecessor. -/
def FollowsInput (g g' : FlowGraph) (b : BlockId) (d : InstId) (k : Nat) : Prop :=
  ∀ c p, g'.reachingClass? ⟨d, k⟩ = some c → (predsOf g' b)[k]? = some p →
    ∃ j, (predsOf g b)[j]? = some p ∧ g.reachingClass? ⟨d, j⟩ = some c

/-- A class that is recorded for an input of a phi was recorded for the same position before, while predecessors that
cannot be reached any more have left theirs. So the class goes with its input where no predecessor up to it is gone. -/
theorem propagation_follows_inputs {changed : Bool} (hform : SsaForm g) (hfresh : g.UpToDate)
    (hrun : propagateConstants.run g = .ok (changed, g')) (hb : b ∈ g'.reversePostorder) (hphi : LivePhi g' b d) :
    LivePhi g b d ∧ predsOf g' b = (predsOf g b).filter (· ∈ g'.reversePostorder) ∧
      (∀ k c, g'.reachingClass? ⟨d, k⟩ = some c → g.reachingClass? ⟨d, k⟩ = some c) ∧
      ∀ k, (∀ p ∈ (predsOf g b).take (k + 1), p ∈ g'.reversePostorder) → FollowsInput g g' b d k := by
  obtain ⟨f, h, t, hsettles, hr⟩ := (leads_propagateConstants hform).post_of_ok hrun
  have hlive := hr.livePhi hform hphi
  have hpreds := hr.preds_eq hform hfresh hsettles (hr.mem_order_iff.mp hb) hlive.1
  have hreaching (k : Nat) (c : ClassId) (hc : g'.reachingClass? ⟨d, k⟩ = some c) : g.reachingClass? ⟨d, k⟩ = some c :=
    hr.quiet.reaching _ c (hr.still.reaching _ c hc)
  refine ⟨hlive, hpreds, hreaching, fun k hk c p hc hp => ⟨k, ?_, hreaching k c hc⟩⟩
  rw [← hp, hpreds, getElem?_filter_of_take (by simpa using hk)]

/-- A variable comes to a join from three blocks: unchanged from `dead`, which nothing leads to, as a checked small
integer from `small`, and as a parameter from `other`. -/
def meeting (dead live small other : BlockId) : List Command :=
  [.targetBlock, .targetBlock, .targetBlock, .targetBlock, .joinBlock,
    .inst (.constant (.bool false)), .branchIf ⟨0⟩ dead live,
    .appendTo dead, .inst (.goto ⟨6⟩),
    .appendTo live, .inst (.loadLocal 0), .branchIf ⟨4⟩ small other,
    .appendTo small, .inst (.constant (.smi 1)), .inst (.storeLocal 2 ⟨7⟩), .inst (.loadLocal 2),
    .inst (.unary .checkSmi ⟨9⟩), .inst (.goto ⟨6⟩),
    .appendTo other, .inst (.loadLocal 1), .inst (.storeLocal 2 ⟨12⟩), .inst (.goto ⟨6⟩),
    .appendTo ⟨6⟩, .inst (.loadLocal 2), .inst (.unary .ret ⟨15⟩)]

/-- The graph with the small integers that were found. -/
def meetingGraph (dead live small other : BlockId) : Option FlowGraph := do
  let (_, r) ← Command.script (meeting dead live small other) FlowGraph.normalEntry (FlowGraph.new "f" 2 1)
  let (_, g) ← (Ssa.construct.run r).toOption
  let (_, g) ← (propagateSmis.run g).toOption
  return g

/-- Whether something is to be seen of a graph before and after constants are propagated. -/
def seenAfter (holds : FlowGraph → FlowGraph → Bool) (g : FlowGraph) : Bool :=
  match propagateConstants.run g with
  | .ok (_, g') => holds g g'
  | .error _ => false

theorem exists_of_seenAfter {holds : FlowGraph → FlowGraph → Bool} {x : Option FlowGraph}
    (h : x.map (seenAfter holds) = some true) :
    ∃ g g', (∃ changed, propagateConstants.run g = .ok (changed, g')) ∧ holds g g' = true := by
  obtain ⟨g, -, hseen⟩ := Option.map_eq_some_iff.mp h
  unfold seenAfter at hseen
  split at hseen
  case h_1 changed g' hrun => exact ⟨g, g', ⟨changed, hrun⟩, hseen⟩
  case h_2 => cases hseen

/-- The predecessor in front is gone. What was recorded for the small integer is now recorded for the parameter. -/
theorem meeting_confuses_inputs : ∃ g g', (SsaForm g ∧ g.UpToDate) ∧
    (∃ changed, propagateConstants.run g = .ok (changed, g')) ∧ ⟨6⟩ ∈ g'.reversePostorder ∧ LivePhi g' ⟨6⟩ ⟨17⟩ ∧
    ¬ FollowsInput g g' ⟨6⟩ ⟨17⟩ 1 := by
  have hcompute : (meetingGraph ⟨2⟩ ⟨3⟩ ⟨4⟩ ⟨5⟩).map (seenAfter fun g g' => decide ((FormSeen g ∧ g.UpToDate) ∧
      ⟨6⟩ ∈ g'.reversePostorder ∧ LivePhi g' ⟨6⟩ ⟨17⟩ ∧ predsOf g ⟨6⟩ = [⟨2⟩, ⟨4⟩, ⟨5⟩] ∧ predsOf g' ⟨6⟩ = [⟨4⟩, ⟨5⟩] ∧
      g'.reachingClass? ⟨⟨17⟩, 1⟩ = some .smi ∧ g.reachingClass? ⟨⟨17⟩, 2⟩ = none)) = some true := by decide +kernel
  obtain ⟨g, g', hrun, hholds⟩ := exists_of_seenAfter hcompute
  obtain ⟨⟨hform, hfresh⟩, hb, hphi, hpreds, hpreds', hclass', hclass⟩ := of_decide_eq_true hholds
  refine ⟨g, g', ⟨hform.form, hfresh⟩, hrun, hb, hphi, fun hfollows => ?_⟩
  obtain ⟨j, hj, hclass''⟩ := hfollows .smi ⟨5⟩ hclass' (by rw [hpreds']; rfl)
  rw [hpreds] at hj
  obtain rfl : j = 2 := by
    match j, hj with
    | 0, hj => simp at hj
    | 1, hj => simp at hj
    | 2, _ => rfl
    | n + 3, hj => simp at hj
  rw [hclass] at hclass''
  cases hclass''

/-- Where the predecessor behind is gone, what was recorded for the small integer stays with it. -/
theorem meeting_follows_inputs : ∃ g g', (SsaForm g ∧ g.UpToDate) ∧
    (∃ changed, propagateConstants.run g = .ok (changed, g')) ∧ ⟨6⟩ ∈ g'.reversePostorder ∧ LivePhi g' ⟨6⟩ ⟨17⟩ ∧
    predsOf g ⟨6⟩ = [⟨3⟩, ⟨4⟩, ⟨5⟩] ∧ predsOf g' ⟨6⟩ = [⟨3⟩, ⟨4⟩] ∧ g'.reachingClass? ⟨⟨17⟩, 0⟩ = some .smi ∧
    FollowsInput g g' ⟨6⟩ ⟨17⟩ 0 := by
  have hcompute : (meetingGraph ⟨5⟩ ⟨2⟩ ⟨3⟩ ⟨4⟩).map (seenAfter fun g g' => decide ((FormSeen g ∧ g.UpToDate) ∧
      ⟨6⟩ ∈ g'.reversePostorder ∧ LivePhi g' ⟨6⟩ ⟨17⟩ ∧ predsOf g ⟨6⟩ = [⟨3⟩, ⟨4⟩, ⟨5⟩] ∧
      ⟨3⟩ ∈ g'.reversePostorder ∧ predsOf g' ⟨6⟩ = [⟨3⟩, ⟨4⟩] ∧ g'.reachingClass? ⟨⟨17⟩, 0⟩ = some .smi)) =
      some true := by
    decide +kernel
  obtain ⟨g, g', hrun, hholds⟩ := exists_of_seenAfter hcompute
  obtain ⟨⟨hform, hfresh⟩, hb, hphi, hpreds, hleft, hpreds', hclass⟩ := of_decide_eq_true hholds
  obtain ⟨changed, htransform⟩ := hrun
  obtain ⟨-, -, -, hfollows⟩ := propagation_follows_inputs hform.form hfresh htransform hb hphi
  refine ⟨g, g', ⟨hform.form, hfresh⟩, ⟨changed, htransform⟩, hb, hphi, hpreds, hpreds', hclass, hfollows 0 fun p hp =>
    ?_⟩
  rw [hpreds] at hp
  obtain rfl : p = ⟨3⟩ := by simpa using hp
  exact hleft

end Constants

end Midend
