import Midend.Proofs.Constants.Transform
import Midend.Proofs.Graph.Code
import Midend.Proofs.Naming.Calls

/-! # Names in constant propagation

The analysis knows the values of definitions only. A constant that takes the place of one gets an index for its sake,
and a phi that is left with one input gives way to it.
-/

namespace Midend.Naming

open FlowGraph Constants

variable {S : Scope} {g g₀ g' : FlowGraph} {d i phi branch : InstId} {b target : BlockId} {e : Inst} {f : Facts}
  {x : Knowledge}

/-! ## What is known is a definition -/

def Produces (g : FlowGraph) (i : InstId) : Prop := ∃ n, g.nodes[i.index]? = some n ∧ n.inst.isDefinition = true

def Defines (g : FlowGraph) (f : Facts) : Prop := ∀ i c, f.value i = .known c → Produces g i

/-- Whatever the step finds out, it finds it out of definitions. -/
def Respects {α : Type} (g : FlowGraph) (m : Analyze α) : Prop := ∀ f, Defines g f → Learns f m fun _ f' => Defines g f'

namespace Respects

variable {α β : Type} {m : Analyze α}

theorem value {a : α} : Respects g (pure a) := fun _ h => Learns.pure_iff.mpr h

theorem fault {e : Fault} : Respects g (throw e : Analyze α) := fun _ _ => Learns.throw_iff.mpr trivial

theorem reading {k : α → Analyze β} {y : Except Fault α} (hk : ∀ a, y = .ok a → Respects g (k a)) :
    Respects g (liftM y >>= k) :=
  fun f h => Learns.bind_iff.mpr (Learns.lift_iff.mpr fun a ha => hk a ha f h)

theorem looking {k : Facts → Analyze β} (hk : ∀ f, Respects g (k f)) : Respects g (get >>= k) :=
  fun f h => Learns.bind_iff.mpr (Learns.get_iff.mpr (hk f f h))

theorem bind {k : α → Analyze β} (hm : Respects g m) (hk : ∀ a, Respects g (k a)) : Respects g (m >>= k) :=
  fun f h => Learns.bind_iff.mpr ((hm f h).mono fun a f' h' => hk a f' h')

theorem each {xs : List α} {k : α → Analyze PUnit} (hk : ∀ a ∈ xs, Respects g (k a)) : Respects g (xs.forM k) := by
  induction xs with
  | nil => exact value
  | cons a rest ih =>
    rw [List.forall_mem_cons] at hk
    exact bind hk.1 fun _ => ih hk.2

theorem ite {c : Prop} [Decidable c] {m' : Analyze α} (hm : Respects g m) (hm' : Respects g m') :
    Respects g (if c then m else m') := by
  split
  · exact hm
  · exact hm'

theorem setValue (hx : ∀ c, x = .known c → Produces g d) : Respects g (setValue g d x) := by
  intro f h
  unfold Constants.setValue
  simp only [Learns.bind_iff, Learns.get_iff, Learns.ite_iff, Learns.pure_iff, Learns.lift_iff, Learns.set_iff]
  refine ⟨fun _ => h, fun _ us _ i c hi => ?_⟩
  rw [Facts.value_insert] at hi
  split at hi
  case isTrue heq => exact heq ▸ hx c hi
  case isFalse => exact h i c hi

theorem reach : Respects g (reach b) := fun _ h =>
  learns_reach.mono fun _ _ hr i c hi => h i c (hr.values i ▸ hi)

theorem waiting {k : Analyze β} {bs : List BlockId} {ds : List InstId} (hk : Respects g k) (f : Facts)
    (h : Defines g f) : Learns f (set { f with blocks := bs, definitions := ds } >>= fun _ => k) fun _ f' =>
    Defines g f' :=
  Learns.bind_iff.mpr (Learns.set_iff.mpr (hk _ h))

end Respects

theorem isDefinition_of_transfer {c : Constant} (h : transfer g f i e = .ok (some (.known c))) :
    e.isDefinition = true := by
  unfold transfer at h
  split at h
  case h_5 cmp =>
    show cmp.opcode.isDefinition = true
    unfold Comparison.opcode
    cases cmp.kind <;> rfl
  case h_11 =>
    by_contra hno
    simp [unevaluated, hno, pure, Except.pure] at h
  all_goals rfl

theorem produces_of_inst (he : g.inst i = .ok e) (hdef : e.isDefinition = true) : Produces g i := by
  obtain ⟨n, hn, rfl⟩ := inst_eq_ok.mp he
  exact ⟨n, hn, hdef⟩

theorem produces_of_isAlivePhi (h : g.isAlivePhi phi = .ok true) : Produces g phi := by
  obtain ⟨e, he, halive⟩ := bind_eq_ok.mp h
  refine produces_of_inst he ?_
  have halive : e.isAlivePhi = true := pure_eq_ok.mp halive
  unfold Inst.isAlivePhi at halive
  split at halive
  · rfl
  · cases halive

theorem respects_visitPhi (hphi : Produces g phi) : Respects g (visitPhi g phi) := by
  refine .reading fun home _ => ?_
  cases home with
  | none => exact .value
  | some b => exact .looking fun f => .reading fun _ _ => .reading fun _ _ => .setValue fun _ _ => hphi

theorem respects_visitPhis : Respects g (visitPhis g b) := by
  refine .reading fun ps hps => .each fun phi hphi => respects_visitPhi ?_
  obtain ⟨all, hall, hread, rfl⟩ := livePhis_eq_ok.mp hps
  obtain ⟨alive, halive⟩ := hread phi (List.mem_filter.mp hphi).1
  have htrue := (List.mem_filter.mp hphi).2
  rw [halive] at htrue
  exact produces_of_isAlivePhi (halive.trans (congrArg Except.ok (by simpa [Except.toOption] using htrue)))

theorem respects_visitBranch {c : Comparison} {onTrue onFalse : BlockId} :
    Respects g (visitBranch g i c onTrue onFalse) := by
  refine .looking fun f => .reading fun x _ => ?_
  split
  · exact .reach
  · exact .reach
  all_goals exact .bind .reach fun _ => .reach

theorem respects_visitInst : Respects g (visitInst g i) := by
  refine .reading fun e he => ?_
  split
  · exact respects_visitPhi (produces_of_inst he rfl)
  · exact .looking fun f => .ite respects_visitPhis .reach
  · exact respects_visitBranch
  · refine .looking fun f => .reading fun r hr => ?_
    cases r with
    | none => exact .value
    | some x => exact .setValue fun c hx => produces_of_inst he (isDefinition_of_transfer (hx ▸ hr))

theorem respects_visitBlock : Respects g (visitBlock g b) :=
  .ite (.bind (.each fun _ _ => respects_visitInst) fun _ => .reading fun _ _ => .each fun _ _ => .reach)
    (.bind respects_visitPhis fun _ => .each fun _ _ => respects_visitInst)

theorem respects_visitUsers : Respects g (visitUsers g d) := by
  refine .reading fun us _ => ?_
  refine .each fun u _ => ?_
  refine .reading fun home _ => ?_
  cases home with
  | none => exact .value
  | some b => exact .looking fun f => .ite respects_visitInst .value

theorem respects_drain (steps : Nat) : Respects g (drain g steps) := by
  induction steps with
  | zero => exact .fault
  | succ steps ih =>
    refine fun f h => Learns.bind_iff.mpr (Learns.get_iff.mpr ?_)
    split
    · exact Respects.waiting (.bind respects_visitBlock fun _ => ih) f h
    · exact Respects.waiting (.bind respects_visitUsers fun _ => ih) f h
    · exact Learns.pure_iff.mpr h

theorem defines_of_analyze (hrun : analyze g = .ok f) : Defines g f := by
  unfold analyze at hrun
  obtain ⟨r, -, hrun₁⟩ := bind_eq_ok.mp hrun
  obtain ⟨⟨_, f'⟩, hrun₂, hf⟩ := bind_eq_ok.mp hrun₁
  obtain rfl := pure_eq_ok.mp hf
  refine (Respects.bind .reach fun _ => respects_drain (visitLimit g)) { reachable := r } (fun d c hd => ?_) _ _ hrun₂
  simp [Facts.value, SideTable.get?] at hd

/-! ## Constants in the place of known values -/

theorem minds_rematerialize (hS : S.Impartial) (hf : Defines g₀ f) (hext : g₀.Extends g) :
    Minds S g (rematerialize f i) := by
  unfold rematerialize
  cases hcheap : cheapValue? f i with
  | none => exact .value trivial
  | some c =>
    refine .reading (.lifted fun op hop => .either (fun _ => .value trivial) fun hstays => ?_)
    have hvalued : g.Valued i := by
      obtain ⟨n, hn, hdef⟩ := hf i c (cheapValue?_eq_some hcheap).1
      obtain ⟨n', hn', hsame⟩ := hext.node i n hn
      refine ⟨n', hn', hsame.definition.trans hdef, fun hpush => hstays ?_⟩
      obtain ⟨m, hm, rfl⟩ := opcode_eq_ok.mp hop
      obtain rfl := Option.some_inj.mp (hn'.symm.trans hm)
      rw [hpush]
      rfl
    refine (vets_addInst (addable_of_parts rfl (List.forall_mem_nil _))).andThen fun d g₁ hext₁ hd => ?_
    refine (minds_insertBefore hd).andThen fun _ g₂ hext₂ _ => ?_
    have hvalued := hvalued.mono (hext₁.trans hext₂)
    refine (vets_ensureSsaIndex hS hd.mem hvalued).andThen fun _ g₃ hext₃ husable => ?_
    refine .knowing fun hg₃ => .andThen (minds_replaceUses fun n hn hne => ?_) fun _ _ hext₄ _ =>
      (minds_remove (loose_of_plain (hvalued.mono (hext₃.trans hext₄)).plain)).andThen fun _ _ _ _ => .value trivial
    obtain ⟨u, hu⟩ := List.exists_mem_of_ne_nil _ hne
    exact husable (hg₃.uses i n hn u hu).2

theorem minds_rematerializeAll {bs : List BlockId} (hS : S.Impartial) (hf : Defines g f) :
    Minds S g (rematerializeAll f bs) :=
  .anyChange fun _ _ _ hext => .reading (.anyChange fun _ _ _ hext' => minds_rematerialize hS hf (hext.trans hext'))

/-! ## Edges that are cut -/

theorem minds_keepInputs {positions : List Nat} : Minds S g (keepInputs phi positions) := by
  refine .reading (.lifted fun e he => ?_)
  split
  case h_2 => exact .value trivial
  case h_1 slot inputs alive representation =>
    intro hg
    rw [Leads.bind_iff, Leads.mapM_lift_iff]
    refine Yields.of_ok fun kept hkept => ?_
    refine minds_setInst he rfl rfl (fun _ h => ⟨fun a ha => h.args a ?_, h.arguments, fun _ _ => rfl⟩) hg
    obtain ⟨k, -, hk⟩ := forall₂_mem_right (mapM_eq_ok.mp hkept) ha
    exact List.mem_of_getElem? (orFault_eq_ok.mp hk)

theorem minds_compactPhis : Minds S g (compactPhis f b) := by
  refine .reading (.lifted fun _ _ => .either (fun _ => .value trivial) fun _ => .lifted fun _ _ => .lifted fun _ _ =>
    ?_)
  refine .filterM fun phi _ g' _ => ?_
  have hrest (g' : FlowGraph) : Minds S g' (do return (← (← get).args phi).length ≤ 1 : Edit Bool) :=
    .reading (.lifted fun _ _ => .value trivial)
  exact .either (fun _ => minds_keepInputs.andThen fun _ _ _ _ => hrest _) fun _ => hrest g'

theorem Stays.sameCode {is : List InstId} (h : Stays S g is) (hcode : ∀ i, g'.codeOf i = g.codeOf i) :
    Stays S g' is := by
  have hinst (i : InstId) (n' : Node) (hn' : g'.nodes[i.index]? = some n') :
      ∃ n, g.nodes[i.index]? = some n ∧ n.inst.bare = n'.inst.bare := by
    have hi := (hcode i).symm.trans (codeOf_eq hn')
    exact Option.map_eq_some_iff.mp hi
  have hends (i : InstId) (hi : g.Ends i) : g'.Ends i := by
    obtain ⟨n, hn, hterm⟩ := hi
    obtain ⟨n', hn', hbare⟩ := Option.map_eq_some_iff.mp ((hcode i).trans (codeOf_eq hn))
    refine ⟨n', hn', ?_⟩
    rw [Inst.isTerminator, ← Inst.opcode_bare, hbare, Inst.opcode_bare]
    exact hterm
  rintro i n' ⟨front, back, rfl, hback⟩ hn' c hc
  obtain ⟨n, hn, hbare⟩ := hinst i n' hn'
  refine h i n ⟨front, back, rfl, fun j hj hj' => hback j hj (hends j hj')⟩ hn c ?_
  rwa [← Inst.successors_bare, hbare, Inst.successors_bare]

theorem stays_append_jump {is : List InstId} (hd : g.codeOf d = some (.goto target)) (htarget : S.blocks target) :
    Stays S g (is ++ [d]) := by
  obtain ⟨m, hm, hjump⟩ := Option.map_eq_some_iff.mp hd
  rintro i n ⟨front, back, heq, hback⟩ hn c hc
  rcases List.eq_nil_or_concat back with rfl | ⟨back, x, rfl⟩
  · obtain rfl : d = i := by simpa using (List.append_inj' heq rfl).2
    obtain rfl := Option.some_inj.mp (hm.symm.trans hn)
    rw [← Inst.successors_bare, hjump] at hc
    exact List.mem_singleton.mp hc ▸ htarget
  · rw [List.concat_eq_append, ← List.cons_append, ← List.append_assoc] at heq
    obtain rfl : d = x := by simpa using (List.append_inj' heq rfl).2
    refine absurd ⟨m, hm, ?_⟩ (hback d (by simp))
    rw [Inst.isTerminator, ← Inst.opcode_bare, hjump]
    rfl

/-- Until the jump is in its place, control may go astray. -/
theorem minds_exchangeLast {jump : InstId} (hS : S.Closed) (hbranch : branch ∈ g.insts b) (hjump : S.insts jump)
    (hgoto : g.codeOf jump = some (.goto target)) (htarget : S.blocks target) : Minds S g (do
      Edit.remove branch
      Edit.append b jump
      Edit.modifyBlock target fun k => { k with kind := .join }) := by
  refine .knowing fun hg => .guiding ?_
  refine ((minds_remove loose_unguided).also Leads.code_remove).andThen fun _ g₁ _ h => ?_
  obtain ⟨-, b', hb', h₁⟩ := h
  refine ((minds_append (S := S.unguided) hjump loose_unguided).also Leads.code_append).andThen fun _ g₂ _ h => ?_
  obtain ⟨-, -, h₂⟩ := h
  have hkind : Minds S.unguided g₂ (Edit.modifyBlock target fun k => { k with kind := .join }) :=
    minds_modifyBlock (fun _ _ => .inl) fun _ _ => .inl
  refine (hkind.also Leads.code_modifyBlock).mono fun _ g₃ _ h => ?_
  obtain ⟨-, h₃⟩ := h
  intro c hc
  obtain ⟨hstrict, hguided⟩ | hall := hS
  case inr => exact fun _ _ _ _ d _ => hall d
  have hcode (i : InstId) : g₃.codeOf i = g.codeOf i := ((h₃.code i).trans (h₂.code i)).trans (h₁.code i)
  obtain rfl : b' = b := by
    have hhome := (hg.bounded.sound hstrict).mem_iff.mp hbranch
    exact Option.some_inj.mp (hb'.symm.trans hhome)
  have hlayout : g₃.layout = (g.layout.unplace branch b').place jump b'
    ((g.layout.unplace branch b').insts b' ++ [jump]) := by
    rw [h₃.layout, h₂.layout]
    show g₁.layout.place jump b' (g₁.layout.insts b' ++ [jump]) = _
    rw [h₁.layout]
    rfl
  have hinsts : g₃.insts c = if c = b' then (g.insts b').erase branch ++ [jump] else g.insts c := by
    unfold insts
    rw [hlayout, Layout.insts_place, Layout.insts_unplace, Layout.insts_unplace, if_pos rfl]
    split <;> rfl
  rw [hinsts]
  split
  · exact (stays_append_jump hgoto htarget).sameCode hcode
  · exact (hg.stays hstrict hguided c hc).sameCode hcode

theorem minds_replaceByJump (hS : S.Closed) (hbranch : branch ∈ g.insts b) (htarget : S.blocks target) :
    Minds S g (replaceByJump b branch target) := by
  have hjump : Watched S g (.goto target) := ⟨List.forall_mem_nil _, List.forall_mem_nil _, fun _ => nofun⟩
  refine (vets_addInst_inst hjump (List.forall_mem_singleton.mpr htarget)).andThen fun d g₁ _ ⟨hd, hgoto, hlayout⟩ => ?_
  refine (minds_copyDeoptTarget.also SameCode.frame.copyDeoptTarget).andThen fun _ g₂ _ ⟨_, h₂⟩ => ?_
  refine minds_exchangeLast hS ?_ hd ?_ htarget
  · unfold insts
    rw [h₂.layout, hlayout]
    exact hbranch
  · obtain ⟨n, hn, hinst⟩ := inst_eq_ok.mp hgoto
    rw [h₂.code, codeOf_eq hn, hinst]
    rfl

theorem mem_of_onlyWay? {onTrue onFalse : BlockId} (h : onlyWay? f onTrue onFalse = some target) :
    target = onTrue ∨ target = onFalse := by
  unfold onlyWay? at h
  split at h
  · exact .inl (Option.some_inj.mp h).symm
  · exact .inr (Option.some_inj.mp h).symm
  · cases h

theorem minds_straighten (hS : S.Closed) (hb : S.blocks b) : Minds S g (straighten f b) := by
  refine .knowing fun hg => .reading ?_
  cases hlast : g.lastInst b with
  | none => exact .value trivial
  | some last =>
    refine .lifted fun e he => ?_
    refine .either (fun _ => .value trivial) fun _ => ?_
    refine .lifted fun t ht => ?_
    refine .lifted fun s hs => ?_
    split
    case h_2 => exact .value trivial
    case h_1 target htarget =>
      refine .andThen (minds_replaceByJump hS (List.mem_of_getLast? hlast) ?_) fun _ _ _ _ => .value trivial
      refine hg.blocks_of_last hS hb hlast he ?_
      obtain rfl | rfl := mem_of_onlyWay? htarget
      · exact List.mem_of_getElem? (orFault_eq_ok.mp ht)
      · exact List.mem_of_getElem? (orFault_eq_ok.mp hs)

theorem minds_cutEdges {bs : List BlockId} (hS : S.Closed) (hbs : ∀ b ∈ bs, S.blocks b) :
    Minds S g (cutEdges f bs) := by
  refine .foldlM (fun _ _ => True) trivial fun b hb x g' _ _ => ?_
  refine .either (fun _ => .value trivial) fun _ => ?_
  refine minds_compactPhis.andThen fun _ _ _ _ => ?_
  exact (minds_straighten hS (hbs b hb)).andThen fun _ _ _ _ => .value trivial

/-! ## Phis that give way -/

theorem minds_dropRedundant : Minds S g (dropRedundant phi) := by
  refine .knowing fun hg => .reading (.lifted fun inputs hinputs => ?_)
  cases hhead : inputs.head? with
  | none => exact .value trivial
  | some input =>
    refine .andThen (minds_replaceUses fun n hn hne => ?_) fun _ _ _ _ => minds_removePhi.andThen fun _ _ _ _ =>
      .value trivial
    obtain ⟨u, hu⟩ := List.exists_mem_of_ne_nil _ hne
    exact hg.usable_of_args (hg.uses phi n hn u hu).2.1 hinputs (List.mem_of_mem_head? hhead)

theorem minds_transform (hS : S.Impartial) (hclosed : S.Closed) (hf : Defines g f) : Minds S g (transform f) := by
  refine .knowing fun hg => .reading ?_
  refine (minds_rematerializeAll hS hf).andThen fun _ g₁ _ _ => ?_
  have hblocks : ∀ b ∈ g.reversePostorder, S.blocks b := fun b hb =>
    hg.bounded.ordered b (.inr (List.mem_reverse.mp hb))
  refine (minds_cutEdges hclosed hblocks).andThen fun cut g₂ _ _ => (minds_discover hclosed).andThen fun _ g₃ _ _ => ?_
  refine (Vets.discarding minds_computeDominators).andThen fun _ g₄ _ _ => minds_computeUseLists.andThen fun _ g₅ _ _ =>
    ?_
  exact .andThen (.anyChange fun phi _ _ _ => minds_dropRedundant) fun _ _ _ _ => .value trivial

theorem minds_propagateConstants (hS : S.Impartial) (hclosed : S.Closed) : Minds S g propagateConstants :=
  .reading (.lifted fun _ hrun => minds_transform hS hclosed (defines_of_analyze hrun))

end Midend.Naming
