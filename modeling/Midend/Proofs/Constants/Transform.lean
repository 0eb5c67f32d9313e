import Midend.Constants
import Midend.Proofs.Constants.Soundness
import Midend.Proofs.Execution.Runs
import Midend.Proofs.Flow.Rediscovery
import Midend.Proofs.Ssa.Splitting

/-! # What the transformation keeps

Instruction by instruction, the transformed graph has what the graph had, a constant that is known, or a jump where
one way of a branch is left. So it still has all blocks and edges that executions take, and the constants are the
values that they stand for.
-/

namespace Midend.Constants

open Execution Ssa

variable {g h h' : FlowGraph} {f : Facts} {i j : InstId} {b c : BlockId}

/-- What the instruction `i` of `g` has become in `h`. -/
inductive Becomes (g : FlowGraph) (f : Facts) (h : FlowGraph) (i : InstId) : InstId → Prop
  | kept {e : Inst} (hcode : g.codeOf i = some e) : Becomes g f h i i
  | made {j : InstId} {c : Constant} (hvalue : f.value i = .known c) (hcheap : c.isCheap = true)
      (hnew : g.codeOf j = none) (hcode : h.codeOf j = some (.constant c)) : Becomes g f h i j
  | straightened {j : InstId} {cmp : Comparison} {onTrue onFalse target : BlockId}
      (hbranch : g.codeOf i = some (.branch cmp onTrue onFalse)) (hway : onlyWay? f onTrue onFalse = some target)
      (hnew : g.codeOf j = none) (hcode : h.codeOf j = some (.goto target)) : Becomes g f h i j

theorem Becomes.mono (hcode : ∀ j e, h.codeOf j = some e → h'.codeOf j = some e) (hij : Becomes g f h i j) :
    Becomes g f h' i j := by
  cases hij with
  | kept hi => exact .kept hi
  | made hvalue hcheap hnew hj => exact .made hvalue hcheap hnew (hcode _ _ hj)
  | straightened hbranch hway hnew hj => exact .straightened hbranch hway hnew (hcode _ _ hj)

theorem Becomes.eq_of_codeOf {e : Inst} (hij : Becomes g f h i j) (hj : g.codeOf j = some e) : i = j := by
  cases hij with
  | kept _ => rfl
  | made _ _ hnew _ | straightened _ _ hnew _ => rw [hnew] at hj; cases hj

structure Transformed (g : FlowGraph) (f : Facts) (h : FlowGraph) : Prop where
  catchEntries : h.catchEntries = g.catchEntries
  layout : h.layout.Sound
  code : ∀ i e, g.codeOf i = some e → h.codeOf i = some e
  insts : ∀ b, g.Reachable b → b ≠ FlowGraph.graphEntry →
    List.Forall₂ (Becomes g f h) (g.insts b) (h.insts b)

namespace Transformed

theorem refl (hform : SsaForm g) : Transformed g f g := by
  refine ⟨rfl, hform.layout, fun _ _ he => he, fun b hb hne => List.forall₂_same.mpr fun i hi => ?_⟩
  obtain ⟨last, -, hall⟩ := (hform.block_holds hb).insts hne
  obtain ⟨n, hn, -⟩ := hall i hi
  exact .kept (FlowGraph.codeOf_eq hn)

theorem same (ht : Transformed g f h) (hsame : h.SameCode h') : Transformed g f h' where
  catchEntries := hsame.catchEntries.trans ht.catchEntries
  layout := hsame.layout ▸ ht.layout
  code i e he := (hsame.code i).trans (ht.code i e he)
  insts b hb hne := by
    have hinsts : h'.insts b = h.insts b := by simp [FlowGraph.insts, hsame.layout]
    rw [hinsts]
    exact (ht.insts b hb hne).imp fun _ _ => Becomes.mono fun j e he => (hsame.code j).trans he

theorem fresh (ht : Transformed g f h) : g.codeOf h.nextId = none := by
  by_contra hsome
  obtain ⟨e, he⟩ := Option.ne_none_iff_exists'.mp hsome
  have hcode := ht.code _ e he
  simp [FlowGraph.codeOf, FlowGraph.nextId] at hcode

theorem codeOf_withInst {n : Node} {e : Inst} (he : h.codeOf i = some e) : (h.withInst n).codeOf i = some e := by
  have hne : i ≠ h.nextId := by
    rintro rfl
    simp [FlowGraph.codeOf, FlowGraph.nextId] at he
  rw [FlowGraph.codeOf, FlowGraph.nodes_withInst, if_neg hne]
  exact he

theorem withInst (ht : Transformed g f h) (n : Node) : Transformed g f (h.withInst n) where
  catchEntries := ht.catchEntries
  layout := ht.layout
  code i e he := codeOf_withInst (ht.code i e he)
  insts b hb hne := (ht.insts b hb hne).imp fun _ _ => Becomes.mono fun _ _ => codeOf_withInst

theorem replace (ht : Transformed g f h) {l : Layout} (hl : h.layout.Replaces i j l)
    (hij : ∀ k, Becomes g f h k i → Becomes g f h k j) : Transformed g f (h.withLayout l) where
  catchEntries := ht.catchEntries
  layout := hl.sound
  code := ht.code
  insts b hb hne := by
    have hinsts : (h.withLayout l).insts b = (h.insts b).map fun k => if k = i then j else k := hl.insts b
    rw [hinsts, List.forall₂_map_right_iff]
    refine (ht.insts b hb hne).imp fun k k' hk => ?_
    have hk' : Becomes g f h k (if k' = i then j else k') := by
      split
      case isTrue heq => exact hij k (heq ▸ hk)
      case isFalse => exact hk
    have hcode : ∀ j e, h.codeOf j = some e → (h.withLayout l).codeOf j = some e := fun _ _ he => he
    exact hk'.mono hcode

end Transformed

/-! ## Constants -/

theorem cheapValue?_eq_some {c : Constant} (hc : cheapValue? f i = some c) :
    f.value i = .known c ∧ c.isCheap = true := by
  unfold cheapValue? at hc
  split at hc
  case h_1 c' hc' =>
    split at hc
    case isTrue hcheap =>
      obtain rfl := Option.some_inj.mp hc
      exact ⟨hc', hcheap⟩
    case isFalse => cases hc
  case h_2 => cases hc

theorem leads_rematerialize (hsettles : Settles g f) (ht : Transformed g f h) :
    Leads True h (rematerialize f i) fun _ h' => Transformed g f h' := by
  unfold rematerialize
  cases hcheap : cheapValue? f i with
  | none => exact ht
  | some c =>
    obtain ⟨hvalue, hfree⟩ := cheapValue?_eq_some hcheap
    dsimp only
    rw [Leads.bind_iff, Leads.get_iff, Leads.bind_iff, Leads.lift_iff]
    refine Yields.of_ok fun op _ => ?_
    split
    · exact ht
    rw [Leads.bind_iff, Leads.addInst_iff, Leads.bind_iff]
    refine Leads.code_insertBefore.mono ?_
    rintro _ h₁ ⟨b, hb, hhome, h₁same⟩
    rw [Leads.bind_iff]
    refine FlowGraph.SameCode.frame.ensureSsaIndex.mono fun _ h₂ h₂same => ?_
    rw [Leads.bind_iff]
    refine Leads.code_replaceUses.mono fun _ h₃ h₃same => ?_
    rw [Leads.bind_iff]
    refine Leads.code_remove.mono ?_
    rintro _ h₄ ⟨b', hb', h₄same⟩
    have hsame := (h₁same.trans h₂same).trans h₃same
    rw [hsame.layout] at hb' h₄same
    refine Transformed.same ?_ ((hsame.withLayout _).trans h₄same)
    refine (ht.withInst _).replace (ht.layout.replaces_before hb hhome hb') fun k hk => ?_
    -- only what the graph had from the start has a value
    obtain ⟨n, hn, -⟩ := hsettles.recorded i (by rw [hvalue]; exact Knowledge.noConfusion)
    obtain rfl := hk.eq_of_codeOf (FlowGraph.codeOf_eq hn)
    refine .made hvalue hfree ht.fresh ?_
    rw [FlowGraph.codeOf, FlowGraph.nodes_withInst, if_pos rfl]
    rfl

theorem leads_rematerializeAll (hsettles : Settles g f) {blocks : List BlockId} (ht : Transformed g f h) :
    Leads True h (rematerializeAll f blocks) fun _ h' => Transformed g f h' := by
  unfold rematerializeAll
  refine Leads.anyChange_of_forall _ ht fun b _ h₁ ht₁ => ?_
  rw [Leads.bind_iff, Leads.get_iff]
  exact Leads.anyChange_of_forall _ ht₁ fun i _ h₂ ht₂ => leads_rematerialize hsettles ht₂

/-! ## Dead edges -/

theorem code_keepInputs {positions : List Nat} : Leads True h (keepInputs i positions) fun _ h' => h.SameCode h' := by
  unfold keepInputs
  rw [Leads.bind_iff, Leads.get_iff, Leads.bind_iff, Leads.lift_iff]
  refine Yields.of_ok fun d hd => ?_
  obtain ⟨n, hn, rfl⟩ := FlowGraph.inst_eq_ok.mp hd
  split
  case h_1 slot inputs alive representation hphi =>
    rw [Leads.bind_iff, Leads.mapM_lift_iff]
    refine Yields.of_ok fun kept _ => ?_
    unfold Edit.setInst
    rw [Leads.modifyNode_iff]
    refine ⟨fun _ => ⟨rfl, rfl, rfl, fun k => ?_⟩, fun _ => trivial⟩
    unfold FlowGraph.codeOf
    rw [FlowGraph.nodes_withNode]
    by_cases hk : k = i
    · subst hk
      simp [hn, hphi, Inst.bare]
    · cases h.nodes[k.index]? <;> simp [hk]
  case h_2 => exact .refl h

theorem code_compactPhis : Leads True h (compactPhis f b) fun _ h' => h.SameCode h' := by
  unfold compactPhis
  rw [Leads.bind_iff, Leads.get_iff, Leads.bind_iff, Leads.lift_iff]
  refine Yields.of_ok fun join _ => ?_
  split
  · exact .refl h
  rw [Leads.bind_iff, Leads.lift_iff]
  refine Yields.of_ok fun preds _ => ?_
  rw [Leads.bind_iff, Leads.lift_iff]
  refine Yields.of_ok fun phis _ => ?_
  refine Leads.filterM_of_forall h.SameCode (.refl h) fun phi _ h₁ h₁same => ?_
  have hrest (h₂ : FlowGraph) (h₂same : h.SameCode h₂) :
      Leads True h₂ (do return decide ((← (← get).args phi).length ≤ 1)) fun _ h' => h.SameCode h' := by
    rw [Leads.bind_iff, Leads.get_iff, Leads.bind_iff, Leads.lift_iff]
    exact Yields.of_ok fun _ _ => h₂same
  split
  · rw [Leads.bind_iff]
    exact code_keepInputs.mono fun _ h₂ h₂same => hrest h₂ (h₁same.trans h₂same)
  · exact hrest h₁ h₁same

theorem eq_branch_of_successors {d : Inst} {onTrue onFalse : BlockId} (htrue : itemAt d.successors 0 = .ok onTrue)
    (hfalse : itemAt d.successors 1 = .ok onFalse) : ∃ cmp, d = .branch cmp onTrue onFalse := by
  have htrue : d.successors[0]? = some onTrue := orFault_eq_ok.mp htrue
  have hfalse : d.successors[1]? = some onFalse := orFault_eq_ok.mp hfalse
  cases d with
  | branch cmp t e =>
    obtain rfl : t = onTrue := Option.some_inj.mp htrue
    obtain rfl : e = onFalse := Option.some_inj.mp hfalse
    exact ⟨cmp, rfl⟩
  | _ => cases hfalse

theorem leads_replaceByJump (ht : Transformed g f h) (hlast : h.lastInst b = some i) {n : Node}
    (hn : h.nodes[i.index]? = some n) {cmp : Comparison} {onTrue onFalse target : BlockId}
    (hbranch : n.inst = .branch cmp onTrue onFalse) (hway : onlyWay? f onTrue onFalse = some target) :
    Leads True h (replaceByJump b i target) fun _ h' => Transformed g f h' := by
  have hcode : h.codeOf i = some (Inst.branch cmp onTrue onFalse).bare := by rw [FlowGraph.codeOf_eq hn, hbranch]
  unfold replaceByJump
  rw [Leads.bind_iff, Leads.addInst_iff, Leads.bind_iff]
  refine FlowGraph.SameCode.frame.copyDeoptTarget.mono fun _ h₁ h₁same => ?_
  rw [Leads.bind_iff]
  refine Leads.code_remove.mono ?_
  rintro _ h₂ ⟨b', hb', h₂same⟩
  rw [Leads.bind_iff]
  refine Leads.code_append.mono ?_
  rintro _ h₃ ⟨hfree, h₃same⟩
  refine Leads.code_modifyBlock.mono fun _ h₄ h₄same => ?_
  have ht₁ : Transformed g f h₁ := (ht.withInst _).same h₁same
  have hmem : i ∈ h.layout.insts b := List.mem_of_getLast? hlast
  have hlayout₁ : h₁.layout = h.layout := h₁same.layout
  obtain rfl : b = b' := by
    rw [hlayout₁, ht.layout.mem_iff.mp hmem] at hb'
    exact Option.some_inj.mp hb'
  rw [h₂same.layout, FlowGraph.layout_withLayout] at hfree h₃same
  refine Transformed.same ?_ (((h₂same.withLayout _).trans h₃same).trans h₄same)
  refine ht₁.replace (ht₁.layout.replaces_last hb' hfree (by rw [hlayout₁]; exact hlast)) fun k hk => ?_
  have hcode₁ : h₁.codeOf i = some (Inst.branch cmp onTrue onFalse).bare :=
    (h₁same.code i).trans (Transformed.codeOf_withInst hcode)
  have hjump : h₁.codeOf h.nextId = some (.goto target) := by
    rw [h₁same.code, FlowGraph.codeOf, FlowGraph.nodes_withInst, if_pos rfl]
    rfl
  cases hk with
  | kept hk =>
    have hbare := (ht₁.code i _ hk).symm.trans hcode₁
    rw [hbare] at hk
    exact .straightened hk hway ht.fresh hjump
  | made _ _ _ hconstant => exact absurd (hcode₁.symm.trans hconstant) (by simp [Inst.bare, Inst.mapArgs])
  | straightened _ _ _ hgoto => exact absurd (hcode₁.symm.trans hgoto) (by simp [Inst.bare, Inst.mapArgs])

theorem leads_straighten (ht : Transformed g f h) :
    Leads True h (straighten f b) fun _ h' => Transformed g f h' := by
  unfold straighten
  rw [Leads.bind_iff, Leads.get_iff]
  cases hlast : h.lastInst b with
  | none => exact ht
  | some last =>
    dsimp only
    rw [Leads.bind_iff, Leads.lift_iff]
    refine Yields.of_ok fun d hd => ?_
    obtain ⟨n, hn, rfl⟩ := FlowGraph.inst_eq_ok.mp hd
    split
    · exact ht
    rw [Leads.bind_iff, Leads.lift_iff]
    refine Yields.of_ok fun onTrue htrue => ?_
    rw [Leads.bind_iff, Leads.lift_iff]
    refine Yields.of_ok fun onFalse hfalse => ?_
    cases hway : onlyWay? f onTrue onFalse with
    | none => exact ht
    | some target =>
      dsimp only
      rw [Leads.bind_iff]
      obtain ⟨cmp, hbranch⟩ := eq_branch_of_successors htrue hfalse
      exact leads_replaceByJump ht hlast hn hbranch hway

theorem leads_cutEdges {blocks : List BlockId} (ht : Transformed g f h) :
    Leads True h (cutEdges f blocks) fun _ h' => Transformed g f h' := by
  unfold cutEdges
  refine Leads.foldlM (fun _ _ h' => Transformed g f h') ht fun _ b _ r h₁ _ ht₁ => ?_
  obtain ⟨changed, redundant⟩ := r
  dsimp only
  split
  · exact ht₁
  rw [Leads.bind_iff]
  refine code_compactPhis.mono fun _ h₂ h₂same => ?_
  rw [Leads.bind_iff]
  exact (leads_straighten (ht₁.same h₂same)).mono fun _ _ ht₃ => ht₃

theorem code_dropRedundant : Leads True h (dropRedundant i) fun _ h' => h.SameCode h' := by
  unfold dropRedundant
  rw [Leads.bind_iff, Leads.get_iff, Leads.bind_iff, Leads.lift_iff]
  refine Yields.of_ok fun as _ => ?_
  cases as.head? with
  | none => exact .refl h
  | some input =>
    dsimp only
    rw [Leads.bind_iff]
    refine Leads.code_replaceUses.mono fun _ h₁ h₁same => ?_
    rw [Leads.bind_iff]
    exact Leads.code_removePhi.mono fun _ h₂ h₂same => h₁same.trans h₂same

theorem leads_transform (hform : SsaForm g) (hsettles : Settles g f) :
    Leads True g (transform f) fun _ g' =>
      Transformed g f g' ∧ ∀ b, g'.Reachable b → b ∈ g'.reversePostorder := by
  unfold transform
  rw [Leads.bind_iff, Leads.get_iff, Leads.bind_iff]
  refine (leads_rematerializeAll hsettles (.refl hform)).mono fun _ h₁ ht₁ => ?_
  rw [Leads.bind_iff]
  refine (leads_cutEdges ht₁).mono fun r h₂ ht₂ => ?_
  obtain ⟨cut, redundant⟩ := r
  dsimp only
  rw [Leads.bind_iff]
  refine Flow.leads_discover_reachable.mono fun _ h₃ hdiscover => ?_
  obtain ⟨hinsts, hfound⟩ := hdiscover
  have ht₃ : Transformed g f h₃ := by
    have hcode (i : InstId) : h₃.codeOf i = h₂.codeOf i := by simp [FlowGraph.codeOf, hinsts.nodes]
    refine ⟨hinsts.catchEntries.trans ht₂.catchEntries, hinsts.layout ▸ ht₂.layout,
      fun i e he => (hcode i).trans (ht₂.code i e he), fun b hb hne => ?_⟩
    have hlist : h₃.insts b = h₂.insts b := by simp [FlowGraph.insts, hinsts.layout]
    rw [hlist]
    exact (ht₂.insts b hb hne).imp fun _ _ => Becomes.mono fun j e he => (hcode j).trans he
  rw [Leads.bind_iff, Leads.discard_iff]
  refine Flow.code_computeDominators.mono fun _ h₄ h₄same => ?_
  rw [Leads.bind_iff]
  refine FlowGraph.SameCode.frame.computeUseLists.mono fun _ h₅ h₅same => ?_
  rw [Leads.bind_iff]
  refine (Leads.anyChange_of_forall h₃.SameCode (h₄same.trans h₅same) fun phi _ h₆ h₆same => ?_).mono
    fun _ g' hsame => ⟨ht₃.same hsame, fun b hb => ?_⟩
  · exact code_dropRedundant.mono fun _ h₇ h₇same => h₆same.trans h₇same
  · have hedges : g'.Edge = h₂.Edge := by
      funext b c
      rw [hsame.edge_iff]
      unfold FlowGraph.Edge
      rw [hinsts.next_eq]
    unfold FlowGraph.Reachable at hb
    rw [hedges] at hb
    rw [FlowGraph.reversePostorder, hsame.postorder]
    exact hfound b hb

/-! ## Blocks and edges -/

theorem onlyWay?_eq_some {onTrue onFalse target : BlockId} (hway : onlyWay? f onTrue onFalse = some target)
    (hc : c = onTrue ∨ c = onFalse) (hreach : f.isReachable c = true) : c = target := by
  unfold onlyWay? at hway
  split at hway
  case h_1 htrue hfalse =>
    obtain rfl := Option.some_inj.mp hway
    refine hc.resolve_right ?_
    rintro rfl
    rw [hfalse] at hreach
    cases hreach
  case h_2 htrue hfalse =>
    obtain rfl := Option.some_inj.mp hway
    refine hc.resolve_left ?_
    rintro rfl
    rw [htrue] at hreach
    cases hreach
  case h_3 => cases hway

theorem next_of_codeOf {e : Inst} (hne : b ≠ FlowGraph.graphEntry) (hlast : h.lastInst b = some i)
    (hcode : h.codeOf i = some e) : h.next b = e.successors := by
  obtain ⟨n, hn, rfl⟩ := Option.map_eq_some_iff.mp hcode
  rw [FlowGraph.next_of_ok (SsaForm.succs_of_last hne hlast hn), Inst.successors_bare]

theorem forall₂_getLast? {R : InstId → InstId → Prop} {xs ys : List InstId} (hall : List.Forall₂ R xs ys)
    (hx : xs.getLast? = some i) : ∃ j, ys.getLast? = some j ∧ R i j := by
  induction hall with
  | nil => cases hx
  | @cons x y xs ys hxy hall ih =>
    cases hall with
    | nil => exact ⟨y, rfl, Option.some_inj.mp hx ▸ hxy⟩
    | cons => simpa [List.getLast?_cons_cons] using ih (by simpa [List.getLast?_cons_cons] using hx)

theorem Transformed.edge (hform : SsaForm g) (hsettles : Settles g f) (ht : Transformed g f h) (hb : g.Reachable b)
    (hedge : g.Edge b c) (hreach : f.isReachable c = true) : h.Edge b c := by
  by_cases hne : b = FlowGraph.graphEntry
  · subst hne
    unfold FlowGraph.Edge at *
    have hnext (g : FlowGraph) : g.next FlowGraph.graphEntry = FlowGraph.normalEntry :: g.catchEntries :=
      FlowGraph.next_of_ok (by simp [FlowGraph.succs]; rfl)
    rwa [hnext, ht.catchEntries, ← hnext]
  obtain ⟨last, hlast, hall⟩ := (hform.block_holds hb).insts hne
  obtain ⟨n, hn, hholds⟩ := hall last (List.mem_of_getLast? hlast)
  obtain ⟨j, hj, hbecomes⟩ := forall₂_getLast? (ht.insts b hb hne) hlast
  unfold FlowGraph.Edge at *
  rw [next_of_codeOf hne hlast (FlowGraph.codeOf_eq hn)] at hedge
  cases hbecomes with
  | kept => rwa [next_of_codeOf hne hj (ht.code _ _ (FlowGraph.codeOf_eq hn))]
  | made hvalue =>
    -- a terminator has no value that could be known
    obtain ⟨m, hm, hterm⟩ := hsettles.recorded last (by rw [hvalue]; exact Knowledge.noConfusion)
    obtain rfl := Option.some_inj.mp (hn.symm.trans hm)
    rw [hholds.terminates.mpr rfl] at hterm
    cases hterm
  | @straightened _ cmp onTrue onFalse target hbranch hway _ hcode =>
    rw [Option.some_inj.mp ((FlowGraph.codeOf_eq hn).symm.trans hbranch)] at hedge
    have hc : c = onTrue ∨ c = onFalse := by simpa [Inst.successors] using hedge
    rw [next_of_codeOf hne hj hcode, onlyWay?_eq_some hway hc hreach]
    exact List.mem_singleton.mpr rfl

/-- What an execution finds in the transformed graph: its block, the edges that it takes from there, and constants in
the place of values that are the same. -/
structure Preserved (g : FlowGraph) (f : Facts) (g' : FlowGraph) (s : State Unit) : Prop where
  block : s.block ∈ g'.reversePostorder
  path : g'.Reachable s.block
  edges : ∀ s', Step g (exact g) s s' → (s'.block = s.block ∧ ∃ i, s.rest = i :: s'.rest) ∨ g'.Edge s.block s'.block
  insts : s.block ≠ FlowGraph.graphEntry → List.Forall₂ (Becomes g f g') (g.insts s.block) (g'.insts s.block)
  constants : ∀ i j v c, Becomes g f g' i j → j ≠ i → g'.codeOf j = some (.constant c) → s.values i = some v →
    v = .constant c

theorem Covered.edge_of_step {s s' : State Unit} (hform : SsaForm g) (h : Covered g f s)
    (hstep : Step g (exact g) s s') : (s'.block = s.block ∧ ∃ i, s.rest = i :: s'.rest) ∨ g.Edge s.block s'.block := by
  cases hstep with
  | define => exact .inl ⟨rfl, _, rfl⟩
  | pass => exact .inl ⟨rfl, _, rfl⟩
  | begin hc => exact .inr hc
  | @jump b c i rest _ _ _ _ n hn hterm hc =>
    have hne : b ≠ FlowGraph.graphEntry := fun hb => by cases h.entry hb
    exact .inr (hform.edge_of_mem h.path hne (h.rest.subset List.mem_cons_self) hn hterm hc)

theorem eq_of_same_cheap {v : Value} {c : Constant} (hsame : v.same (.constant c) = true) (hcheap : c.isCheap = true) :
    v = .constant c := by
  obtain ⟨c', rfl, hc'⟩ := Knowledge.covers_known.mp hsame
  obtain rfl | ⟨i, as, bs, rfl, rfl⟩ := Constant.eq_of_same hc'
  · rfl
  · cases hcheap

/-- If the analysis has a result, then wherever an execution comes, the block was reached, and every definition that is
known to be a constant has given that constant. So the transformed graph has the block, the edges that the execution
takes, and constants that are the values they stand for. -/
theorem propagation_sound (hform : SsaForm g) (hanalysis : analyze g = .ok f) :
    (∀ s, Reaches g (exact g) s → f.isReachable s.block = true ∧
      ∀ d v c, s.values d = some v → f.value d = .known c → v.same (.constant c) = true) ∧
    ∀ changed g', (transform f).run g = .ok (changed, g') → ∀ s, Reaches g (exact g) s → Preserved g f g' s := by
  have hsettles := analyze_settles hform hanalysis
  have hvalues (s : State Unit) (hs : Covered g f s) (d : InstId) (v : Value) (c : Constant)
      (hv : s.values d = some v) (hc : f.value d = .known c) : v.same (.constant c) = true := by
    have hcovers := hs.values d v hv
    rwa [hc] at hcovers
  refine ⟨fun s hs => ?_, fun changed g' hrun s hs => ?_⟩
  · have hcovered := covered_of_reaches hform hsettles hs
    exact ⟨hcovered.reachable, hvalues s hcovered⟩
  · obtain ⟨ht, hfound⟩ := (leads_transform hform hsettles).post_of_ok hrun
    have hedge (s s' : State Unit) (hs : Reaches g (exact g) s) (hstep : Step g (exact g) s s') :
        (s'.block = s.block ∧ ∃ i, s.rest = i :: s'.rest) ∨ g'.Edge s.block s'.block := by
      have hcovered := covered_of_reaches hform hsettles hs
      refine (hcovered.edge_of_step hform hstep).imp_right fun hedge => ?_
      exact ht.edge hform hsettles hcovered.path hedge (hcovered.step hform hsettles hstep).reachable
    -- the blocks of the execution are reached in the new graph along the edges that it takes
    have hpath : g'.Reachable s.block := by
      refine hs.induction (fun s => g'.Reachable s.block) (fun s hs => ?_) fun s s' hs hpath hstep => ?_
      · rw [hs.block]
        exact .refl
      · obtain ⟨hblock, -⟩ | hedge := hedge s s' hs hstep
        · rwa [hblock]
        · exact hpath.tail hedge
    have hcovered := covered_of_reaches hform hsettles hs
    refine ⟨hfound _ hpath, hpath, fun s' => hedge s s' hs, ht.insts _ hcovered.path, ?_⟩
    intro i j v c hij hne hcode hv
    cases hij with
    | kept => exact absurd rfl hne
    | made hvalue hcheap _ hj =>
      obtain rfl : _ = c := Inst.constant.inj (Option.some_inj.mp (hj.symm.trans hcode))
      exact eq_of_same_cheap (hvalues s hcovered i v _ hv hvalue) hcheap
    | straightened _ _ _ hj => exact absurd (hj.symm.trans hcode) (by simp)

/-- One of the executions, as far as constants and small integer operations go. -/
def exactEvaluator (g : FlowGraph) : Evaluator g (exact g) where
  run σ _ d := match d with
    | .constant c => some (some (.constant c), ())
    | .binaryOp .binarySmiOp op l r _ =>
      match (σ l).bind Value.smi?, (σ r).bind Value.smi? with
      | some x, some y => (exactResult op x y).bind fun z =>
        if Word.Fits x ∧ Word.IsSmi z then some (some (.smi z), ()) else none
      | _, _ => none
    | _ => none
  does := by
    intro σ μ i d result μ' hclasses hrun
    split at hrun
    case h_1 c =>
      obtain ⟨rfl, -⟩ := Prod.mk.inj (Option.some_inj.mp hrun)
      exact ⟨rfl, hclasses, rfl⟩
    case h_2 op l r overflow =>
      split at hrun
      case h_2 => cases hrun
      case h_1 x y hx hy =>
        obtain ⟨z, hz, hrun₁⟩ := Option.bind_eq_some_iff.mp hrun
        split at hrun₁
        case isFalse => cases hrun₁
        case isTrue hfits =>
          obtain ⟨rfl, -⟩ := Prod.mk.inj (Option.some_inj.mp hrun₁)
          refine ⟨rfl, hclasses, fun x' y' hx' hy' => ?_⟩
          obtain rfl : x' = x := by simpa [hx', Value.smi, Value.smi?, Constant.smi?] using hx
          obtain rfl : y' = y := by simpa [hy', Value.smi, Value.smi?, Constant.smi?] using hy
          exact ⟨hfits.1, z, hz, hfits.2, rfl⟩
    case h_3 => cases hrun
  jumps hclasses := ⟨⟨rfl, hclasses, trivial⟩, trivial⟩
  branches hclasses houtcome := ⟨⟨rfl, hclasses, trivial⟩, _, houtcome, rfl⟩

/-- Adds one and two, and asks whether that is less than five. -/
def foldedSum : List Command :=
  [.targetBlock, .targetBlock,
    .inst (.constant (.smi 1)), .inst (.constant (.smi 2)), .inst (.smiOp .add ⟨0⟩ ⟨1⟩), .inst (.storeLocal 1 ⟨2⟩),
    .inst (.loadLocal 1), .inst (.constant (.smi 5)), .inst (.branch (.relational .lt ⟨4⟩ ⟨5⟩ none) ⟨2⟩ ⟨3⟩),
    .appendTo ⟨2⟩, .inst (.loadLocal 1), .inst (.unary .ret ⟨7⟩),
    .appendTo ⟨3⟩, .inst (.loadLocal 0), .inst (.unary .ret ⟨9⟩)]

def foldedSumHolds (r : FlowGraph) : Bool :=
  match Ssa.construct.run r with
  | .ok (.ok (), g) =>
    match analyze g, (exactEvaluator g).after? 6 (startState g (fun _ => .object 0 ⟨64⟩) ()) with
    | .ok f, some s =>
      match (transform f).run g with
      | .ok (_, g') => endsOnce r && (g.initialDefinitions.all fun d => (g.nodes[d.index]?).isSome) &&
        s.block == ⟨2⟩ && (s.values ⟨2⟩).bind Value.smi? == some 3 && g'.insts ⟨1⟩ == [⟨0⟩, ⟨1⟩, ⟨13⟩, ⟨5⟩, ⟨14⟩] &&
        decide (⟨3⟩ ∉ g'.reversePostorder)
      | _ => false
    | _, _ => false
  | _ => false

/-- An execution adds the numbers and comes to the block behind the branch. The transformed graph has that block, with a
constant for the sum and a jump for the branch, and the other block is gone. -/
theorem foldedSum_preserved : ∃ g f g' s, SsaForm g ∧ analyze g = .ok f ∧
    (∃ changed, (transform f).run g = .ok (changed, g')) ∧ Reaches g (exact g) s ∧ f.isReachable s.block = true ∧
    Preserved g f g' s ∧ s.block = ⟨2⟩ ∧ (s.values ⟨2⟩).bind Value.smi? = some 3 ∧
    g'.insts ⟨1⟩ = [⟨0⟩, ⟨1⟩, ⟨13⟩, ⟨5⟩, ⟨14⟩] ∧ ⟨3⟩ ∉ g'.reversePostorder := by
  have hcompute : ((Command.script foldedSum FlowGraph.normalEntry (FlowGraph.new "f" 1 1)).map
      (foldedSumHolds ·.2)) = some true := by decide +kernel
  obtain ⟨⟨b₀, r⟩, hscript, hholds⟩ := Option.map_eq_some_iff.mp hcompute
  have hstart : Built FlowGraph.normalEntry (FlowGraph.new "f" 1 1) := @Built.start "f" 1 1 none (by decide)
  have hbuilt := hstart.script hscript
  unfold foldedSumHolds at hholds
  split at hholds
  case h_2 => cases hholds
  case h_1 g hg =>
    split at hholds
    case h_2 => cases hholds
    case h_1 f s hf hs =>
      split at hholds
      case h_2 => cases hholds
      case h_1 changed g' hg' =>
        simp only [Bool.and_eq_true, beq_iff_eq, decide_eq_true_eq, List.all_eq_true] at hholds
        obtain ⟨⟨⟨⟨⟨hends, hinitial⟩, hblock⟩, hsum⟩, hinsts⟩, hgone⟩ := hholds
        have hform : SsaForm g := construct_form hbuilt (fun c _ => endsOnce_of_computed hbuilt hends c) hg
        have hreached : Reaches g (exact g) s := ⟨_, start_startState hinitial, Evaluator.steps_of_after hs⟩
        obtain ⟨hanalysis, htransform⟩ := propagation_sound hform hf
        exact ⟨g, f, g', s, hform, hf, ⟨changed, hg'⟩, hreached, (hanalysis s hreached).1,
          htransform changed g' hg' s hreached, hblock, hsum, hinsts, hgone⟩

end Midend.Constants
