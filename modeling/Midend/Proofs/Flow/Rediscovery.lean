import Midend.Proofs.Flow.Tree
import Midend.Proofs.Graph.Code

/-! # Discovery of any graph

Whatever graph it starts from, discovery that ends without a fault has found all blocks that can be reached.
-/

namespace Midend.Flow

variable {g t t' : FlowGraph} {b : BlockId}

/-- Nothing but blocks and their orders has changed. -/
structure SameInsts (t t' : FlowGraph) : Prop where
  nodes : t'.nodes = t.nodes
  layout : t'.layout = t.layout
  catchEntries : t'.catchEntries = t.catchEntries

theorem SameInsts.succs_eq (h : SameInsts t t') (b : BlockId) : t'.succs b = t.succs b := by
  unfold FlowGraph.succs FlowGraph.lastInst FlowGraph.inst FlowGraph.node
  rw [h.nodes, h.layout, h.catchEntries]

theorem SameInsts.next_eq (h : SameInsts t t') (b : BlockId) : t'.next b = t.next b := by
  unfold FlowGraph.next
  rw [h.succs_eq]

theorem leads_discover_reachable : Leads True g discover fun _ g' =>
    SameInsts g g' ∧ ∀ b, g.Reachable b → b ∈ g'.reversePostorder := by
  refine (leads_discover (.inl trivial)).mono ?_
  rintro _ _ ⟨t, rfl, ht⟩
  refine ⟨⟨rfl, rfl, rfl⟩, fun b hb => List.mem_reverse.mpr ?_⟩
  exact ht.opened.symm.subset (ht.mem_preorder_iff_reachable.mpr hb)

/-! ## Predecessors in order -/

/-- The predecessors are in the order of their keys. -/
def InKeyOrder (ps : List BlockId) : Prop := ps.Pairwise (·.index ≤ ·.index)

theorem InKeyOrder.withPred {ps : List BlockId} (hps : InKeyOrder ps) (p : BlockId) : InKeyOrder (withPred ps p) := by
  unfold InKeyOrder at *
  induction ps with
  | nil => exact List.pairwise_singleton _ _
  | cons q ps ih =>
    rw [List.pairwise_cons] at hps
    by_cases hq : q.index ≤ p.index
    · have hcons : Flow.withPred (q :: ps) p = q :: Flow.withPred ps p := by simp [Flow.withPred, hq]
      rw [hcons, List.pairwise_cons]
      refine ⟨fun r hr => ?_, ih hps.2⟩
      obtain rfl | hr := List.mem_cons.mp ((withPred_perm ps p).subset hr)
      · exact hq
      · exact hps.1 r hr
    · have hcons : Flow.withPred (q :: ps) p = p :: q :: ps := by simp [Flow.withPred, hq]
      rw [hcons, List.pairwise_cons, List.pairwise_cons]
      refine ⟨fun r hr => ?_, hps⟩
      obtain rfl | hr := List.mem_cons.mp hr
      · exact Nat.le_of_lt (Nat.lt_of_not_le hq)
      · exact Nat.le_trans (Nat.le_of_lt (Nat.lt_of_not_le hq)) (hps.1 r hr)

/-- The predecessors of the blocks that have been visited are in order. -/
def PredsInOrder (g : FlowGraph) : Prop :=
  ∀ (b : BlockId) (k : Block), g.blocks[b.index]? = some k → k.preorderNumber.isSome = true → InKeyOrder k.preds

theorem leads_modifyBlock_inOrder {f : Block → Block} (hg : PredsInOrder g)
    (hf : ∀ k, g.blocks[b.index]? = some k → (k.preorderNumber.isSome = true → InKeyOrder k.preds) →
      (f k).preorderNumber.isSome = true → InKeyOrder (f k).preds) :
    Leads True g (Edit.modifyBlock b f) fun _ g' =>
      PredsInOrder g' ∧ g'.blocks[b.index]? = (g.blocks[b.index]?).map f := by
  rw [Leads.modifyBlock_iff]
  refine ⟨fun _ => ⟨fun c k hk hsome => ?_, ?_⟩, fun _ => trivial⟩
  · rw [FlowGraph.blocks_withBlock] at hk
    obtain ⟨k', hk', rfl⟩ := Option.map_eq_some_iff.mp hk
    by_cases hc : c = b
    · subst hc
      rw [if_pos rfl] at hsome ⊢
      exact hf k' hk' (hg _ k' hk') hsome
    · rw [if_neg hc] at hsome ⊢
      exact hg c k' hk' hsome
  · rw [FlowGraph.blocks_withBlock]
    simp

theorem leads_addPred_inOrder {p : BlockId} (hg : PredsInOrder g) (hb : ∀ k, g.blocks[b.index]? = some k →
    k.preorderNumber.isSome = true ∨ k.preds = []) : Leads True g (addPred b p) fun _ g' => PredsInOrder g' ∧
      ∀ k, g'.blocks[b.index]? = some k → InKeyOrder k.preds := by
  have hordered (k : Block) (hk : g.blocks[b.index]? = some k) : InKeyOrder k.preds := by
    obtain hsome | hnil := hb k hk
    · exact hg b k hk hsome
    · rw [hnil]
      exact .nil
  refine (leads_modifyBlock_inOrder hg fun k hk _ _ => (hordered k hk).withPred p).mono ?_
  rintro _ g' ⟨hg', hblock⟩
  refine ⟨hg', fun k' hk' => ?_⟩
  rw [hblock] at hk'
  obtain ⟨k, hk, rfl⟩ := Option.map_eq_some_iff.mp hk'
  exact (hordered k hk).withPred p

theorem leads_visitBlock_inOrder {pred : Option BlockId} (hg : PredsInOrder g) :
    Leads True g (visitBlock b pred) fun _ g' => PredsInOrder g' := by
  have hend (g₁ : FlowGraph) (h₁ : PredsInOrder g₁) (hb : ∀ k, g₁.blocks[b.index]? = some k → InKeyOrder k.preds)
      (parent : Option Nat) : Leads True g₁ (do
        let slots ← assignedSlots g₁ (g₁.insts b)
        Edit.modifyBlock b fun k => { k with preorderNumber := some g₁.preorder.length }
        modify fun g => { g with
          preorder := g.preorder ++ [b]
          parents := g.parents.push parent
          assigned := g.assigned.push slots }) fun _ g' => PredsInOrder g' := by
    rw [Leads.bind_iff, Leads.lift_iff]
    refine Yields.of_ok fun slots _ => ?_
    rw [Leads.bind_iff]
    refine Leads.mono (leads_modifyBlock_inOrder h₁ ?_) fun _ g₂ h₂ => h₂.1
    exact fun k hk _ _ => hb k hk
  unfold visitBlock
  rw [Leads.bind_iff]
  refine Leads.mono (leads_modifyBlock_inOrder hg ?_) ?_
  · exact fun _ _ _ _ => List.Pairwise.nil
  rintro _ g₁ ⟨h₁, hblock⟩
  have hnil (k : Block) (hk : g₁.blocks[b.index]? = some k) : k.preds = [] := by
    rw [hblock] at hk
    obtain ⟨k', -, rfl⟩ := Option.map_eq_some_iff.mp hk
    rfl
  cases pred with
  | none =>
    rw [Leads.bind_iff, Leads.get_iff]
    exact hend g₁ h₁ (fun k hk => by rw [hnil k hk]; exact .nil) none
  | some p =>
    rw [Leads.bind_iff]
    refine (leads_addPred_inOrder h₁ fun k hk => .inr (hnil k hk)).mono ?_
    rintro _ g₂ ⟨h₂, hordered⟩
    rw [Leads.bind_iff, Leads.get_iff, Leads.bind_iff, Leads.lift_iff]
    exact Yields.of_ok fun k _ => hend g₂ h₂ hordered _

theorem leads_walk_inOrder {steps : Nat} {stack : List (BlockId × List BlockId)} (hg : PredsInOrder g) :
    Leads True g (walk steps stack) fun _ g' => PredsInOrder g' := by
  induction steps generalizing g stack with
  | zero => cases stack <;> simp [walk, hg]
  | succ steps ih =>
    obtain _ | ⟨⟨b, _ | ⟨s, rest⟩⟩, stack⟩ := stack
    · exact hg
    · rw [walk, Leads.bind_iff]
      unfold finishBlock
      rw [Leads.bind_iff, Leads.get_iff, Leads.bind_iff]
      refine Leads.mono (leads_modifyBlock_inOrder hg ?_) fun _ g₁ h₁ => ?_
      · exact fun k _ h => h
      rw [Leads.modify_iff]
      exact ih h₁.1
    · rw [walk, Leads.bind_iff, Leads.get_iff, Leads.bind_iff, Leads.lift_iff]
      refine Yields.of_ok fun k hk => ?_
      have hk : g.blocks[s.index]? = some k := FlowGraph.block_eq_ok.mp hk
      split
      case isTrue hsome =>
        rw [Leads.bind_iff]
        refine (leads_addPred_inOrder hg fun k' hk' => .inl ?_).mono fun _ g₁ h₁ => ih h₁.1
        rwa [Option.some_inj.mp (hk'.symm.trans hk)]
      case isFalse =>
        rw [Leads.bind_iff]
        refine (leads_visitBlock_inOrder hg).mono fun _ g₁ h₁ => ?_
        rw [Leads.bind_iff, Leads.get_iff, Leads.bind_iff, Leads.lift_iff]
        exact Yields.of_ok fun ss _ => ih h₁

theorem leads_discover_inOrder : Leads True g discover fun _ g' => PredsInOrder g' := by
  unfold discover forgetOrder
  rw [Leads.bind_iff, Leads.modify_iff, Leads.bind_iff]
  refine (leads_visitBlock_inOrder fun b k hk hsome => ?_).mono fun _ g₁ h₁ => ?_
  · obtain ⟨k', -, rfl⟩ := Option.map_eq_some_iff.mp ((Array.getElem?_map ..).symm.trans hk)
    cases hsome
  · rw [Leads.bind_iff, Leads.get_iff, Leads.bind_iff, Leads.lift_iff]
    exact Yields.of_ok fun ss _ => leads_walk_inOrder h₁

/-- Lists in order that have every predecessor equally often are the same. -/
theorem InKeyOrder.eq_of_count {ps qs : List BlockId} (hps : InKeyOrder ps) (hqs : InKeyOrder qs)
    (hcount : ∀ p, ps.count p = qs.count p) : ps = qs :=
  (List.perm_iff_count.mpr hcount).eq_of_pairwise
    (fun _ _ _ _ hab hba => BlockId.index_inj.mp (Nat.le_antisymm hab hba)) hps hqs

theorem code_computeDominators : Leads True g computeDominators fun _ g' => g.SameCode g' := by
  unfold computeDominators
  rw [Leads.bind_iff, Leads.get_iff, Leads.bind_iff, Leads.lift_iff]
  refine Yields.of_ok fun preds _ => ?_
  rw [Leads.bind_iff]
  refine (Leads.forM_of_forall g.SameCode (.refl g) fun b _ g₁ h₁ => ?_).mono fun _ g₂ h₂ => ?_
  · exact Leads.code_modifyBlock.mono fun _ _ h => h₁.trans h
  rw [Leads.bind_iff]
  refine (Leads.forM_of_forall g.SameCode h₂ fun ⟨b, n⟩ _ g₃ h₃ => ?_).mono fun _ g₄ h₄ => h₄
  dsimp only
  cases (dominatorTree preds g.parents)[n]?.join with
  | some d =>
    unfold setDominator
    rw [Leads.bind_iff, Leads.get_iff, Leads.bind_iff, Leads.lift_iff]
    refine Yields.of_ok fun dom _ => ?_
    rw [Leads.bind_iff]
    exact Leads.code_modifyBlock.mono fun _ _ h => Leads.code_modifyBlock.mono fun _ _ h' => (h₃.trans h).trans h'
  | none => exact h₃

end Midend.Flow
