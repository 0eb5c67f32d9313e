import Midend.Proofs.Naming.Rewrites
import Midend.Proofs.Ranges.Transparency

/-! # Names in range analysis

A constraint takes over uses of the value it constrains before it has a name of its own, and gets one at once. When the
constraints go, each of them gives way to an input that it was made with.
-/

namespace Midend.Naming

open FlowGraph Ranges

variable {S : Scope} {g g' : FlowGraph} {a d i check name : InstId} {b : BlockId} {e : Inst} {ctx : Context}

/-! ## Constraints -/

theorem minds_renameBehind {p : Position} (hname : Usable S g name) : Minds S g (renameBehind p d name) := by
  refine .knowing fun hg => .reading (.lifted fun us hus => .each fun u hu g' hext =>
    .either (fun _ => .value trivial) fun _ => ?_)
  refine .reading (.lifted fun _ _ => .either (fun _ => .value trivial) fun _ => .reading (.lifted fun _ _ => ?_))
  exact .either (fun _ => minds_setArg (hg.uses_of_inputUses hus hu).1 (hname.mono hext)) fun _ => .value trivial

/-- The constraints that have been made end no block. -/
def plainConstraints (S : Scope) : Ledger Progress where
  holds s g := ∀ c ∈ s.constraints, Loose S g c
  mono _ _ _ hext h c hc := (h c hc).mono hext

theorem carries_constrain {range : Range} {p : Position} {dependency : Option InstId} (hd : Usable S g d)
    (hdependency : ∀ x, dependency = some x → Usable S g x) :
    Carries S (plainConstraints S) g (constrain d range p dependency) fun _ _ => True := by
  have hmake (rest : List InstId) (place : InstId → Edit Unit) (hrest : ∀ x ∈ rest, Usable S g x)
      (hplace : ∀ c g', Inner (S.excuse c) g' c → Minds (S.excuse c) g' (place c)) :
      Carries S (plainConstraints S) g (do
        let constraint ← Edit.addInst (.constraint range (d :: rest))
        renameBehind p d constraint
        place constraint
        discard <| Edit.allocSsaIndex constraint
        modify fun s => { s with constraints := s.constraints ++ [constraint] } : Analysis Unit) fun _ _ => True := by
    refine .andThen (.edit (vets_addInst (addable_of_parts rfl (List.forall_mem_cons.mpr ⟨hd, hrest⟩)))) fun c g₁ _
      hc => ?_
    refine .excusing (.andThen (.edit (minds_renameBehind (usable_excuse_self hc.mem))) fun _ g₂ hext₂ _ => ?_)
    refine .andThen (.edit (hplace c g₂ ((hc.excuse c).mono hext₂))) fun _ g₃ hext₃ _ => ?_
    refine .andThen (.ignoring (.edit vets_allocSsaIndex)) fun _ _ hext₄ hnamed => .noted hnamed fun s hs => ?_
    exact List.forall_mem_append.mpr
      ⟨hs, List.forall_mem_singleton.mpr (hc.loose.mono ((hext₂.trans hext₃).trans hext₄))⟩
  have hprepend (b : BlockId) (c : InstId) (g' : FlowGraph) (hc : Inner (S.excuse c) g' c) :
      Minds (S.excuse c) g' (Edit.prepend b c) := minds_prepend hc
  have hinsert (i c : InstId) (g' : FlowGraph) (hc : Inner (S.excuse c) g' c) :
      Minds (S.excuse c) g' (Edit.insertAfter i c) := minds_insertAfter hc
  unfold constrain
  refine .graph (.read fun _ _ => .ite (fun _ => .value trivial) fun _ => ?_)
  cases dependency with
  | some x =>
    refine .read fun _ _ => .ite (fun _ => ?_) fun _ => ?_
    · cases p with
      | start b => exact hmake _ _ (List.forall_mem_singleton.mpr (hdependency x rfl)) (hprepend b)
      | after i => exact hmake _ _ (List.forall_mem_singleton.mpr (hdependency x rfl)) (hinsert i)
    · cases p with
      | start b => exact hmake [] _ (List.forall_mem_nil _) (hprepend b)
      | after i => exact hmake [] _ (List.forall_mem_nil _) (hinsert i)
  | none =>
    cases p with
    | start b => exact hmake [] _ (List.forall_mem_nil _) (hprepend b)
    | after i => exact hmake [] _ (List.forall_mem_nil _) (hinsert i)

/-! ## Lengths -/

theorem carries_lengthSymbol {cls : ClassId} (hd : Usable S g d) :
    Carries S (plainConstraints S) g (lengthSymbol d cls) fun _ _ => True := by
  unfold lengthSymbol
  split
  · exact .value trivial
  · refine .andThen (.edit (vets_addInst (addable_one rfl hd))) fun i _ _ _ => ?_
    refine .andThen (.discarding (.edit vets_allocSsaIndex.minds)) fun _ _ _ _ => ?_
    exact .andThen (.edit minds_setRange) fun _ _ _ _ => .andThen (.note fun _ h => h) fun _ _ _ _ => .value trivial

theorem carries_newLength {cls : ClassId} (hd : Usable S g d) :
    Carries S (plainConstraints S) g (newLength d cls) fun _ _ => True := by
  refine .graph (.read fun _ _ => ?_)
  split
  · split
    · exact .read fun _ _ => .edit (.read fun _ _ => trivial)
    · exact carries_lengthSymbol hd
  · exact .value trivial
  · exact .value trivial
  · exact carries_lengthSymbol hd

theorem carries_arrayLength (hcheck : S.insts check) : Carries S (plainConstraints S) g (arrayLength check) fun _ _ =>
    True := by
  refine .knowing fun hg => .graph (.read fun e he => ?_)
  split
  · refine .state fun _ _ => ?_
    split
    · exact .value trivial
    · refine .andThen (carries_newLength ?_) fun _ _ _ _ => .andThen (.note fun _ h => h) fun _ _ _ _ => .value trivial
      exact hg.usable_of_inputs hcheck ⟨_, he, List.mem_cons_self⟩
  · exact .value trivial

/-! ## What comparisons and checks say -/

theorem carries_constrainAfterBranch {u : Use} (hu : S.insts u.user) (hd : Usable S g d) :
    Carries S (plainConstraints S) g (constrainAfterBranch d u) fun _ _ => True := by
  refine .knowing fun hg => .graph (.read fun e he => ?_)
  split
  case h_2 => exact .value trivial
  case h_1 c onTrue onFalse =>
    refine .ite (fun _ => .value trivial) fun _ => ?_
    have hother (x : InstId) (hx : (if u.index = 0 then (c.right, c.op) else (c.left, c.op.flipped)).1 = x) :
        Usable S g x := by
      refine hg.usable_of_inputs hu ⟨_, he, ?_⟩
      split at hx
      · exact hx ▸ List.mem_cons_of_mem _ (List.mem_singleton_self _)
      · exact hx ▸ List.mem_cons_self
    dsimp only
    refine .read fun holds _ => ?_
    cases holds with
    | none => exact .value trivial
    | some holds =>
      refine .read fun _ _ => .read fun fails _ => ?_
      cases fails with
      | none => exact .value trivial
      | some fails =>
        refine .andThen (carries_constrain hd fun x hx => hother x (Option.some_inj.mp hx)) fun _ _ hext _ => ?_
        exact carries_constrain (hd.mono hext) fun x hx => (hother x (Option.some_inj.mp hx)).mono hext

theorem carries_constrainAfterCheck (hcheck : S.insts check) (hd : Usable S g d) :
    Carries S (plainConstraints S) g (constrainAfterCheck d check) fun _ _ => True := by
  refine .graph (.read fun _ _ => ?_)
  split
  · refine .ite (fun _ => .value trivial) fun _ => ?_
    refine (carries_arrayLength hcheck).andThen fun _ _ hext _ => ?_
    refine .read fun _ _ => ?_
    exact carries_constrain (hd.mono hext) nofun
  · exact .value trivial

theorem carries_constrainUses : Carries S (plainConstraints S) g (constrainUses d) fun _ _ => True := by
  refine .knowing fun hg => .graph (.read fun us hus => .each fun u hu g' hext => .graph (.read fun _ _ => ?_))
  obtain ⟨huser, hd⟩ := hg.uses_of_inputUses hus hu
  refine .ite (fun _ => .value trivial) fun _ => ?_
  refine .read fun _ _ => ?_
  refine .ite (fun _ => .value trivial) fun _ => ?_
  refine .read fun _ _ => ?_
  split
  · exact carries_constrainAfterBranch huser (hd.mono hext)
  · exact .ite (fun _ => carries_constrainAfterCheck huser (hd.mono hext)) fun _ => .value trivial
  · exact .value trivial

theorem carries_constrainFurther (steps k : Nat) : Carries S (plainConstraints S) g (constrainFurther steps k) fun _
    _ => True := by
  induction steps generalizing g k with
  | zero => exact .fault
  | succ steps ih =>
    refine .state fun s _ => ?_
    split
    · exact .value trivial
    · exact carries_constrainUses.andThen fun _ _ _ _ => ih (k + 1)

theorem carries_insertConstraints {checks values : List InstId} (hchecks : ∀ c ∈ checks, S.insts c) :
    Carries S (plainConstraints S) g (insertConstraints checks values) fun _ _ => True := by
  refine .andThen (.each fun c hc g' _ => .knowing fun hg' => .graph (.read fun d hd => ?_)) fun _ g₁ _ _ => ?_
  · exact carries_constrain (hg'.usable_of_arg (hchecks c hc) hd) nofun
  · exact .andThen (.each fun _ _ _ _ => carries_constrainUses) fun _ _ _ _ => .graph (carries_constrainFurther _ 0)

/-! ## Inference -/

theorem minds_clearOverflow : Minds S g (Edit.modifyNode d fun n => { n with inst := clearOverflow n.inst }) := by
  refine minds_modifyNode fun _ n _ => ?_
  have hsuccs : (clearOverflow n.inst).successors = n.inst.successors := by cases n.inst <;> rfl
  refine .of_opcode (opcode_clearOverflow ..) hsuccs rfl (fun _ h => ?_) fun _ hu => .inl hu
  show Watched S g (clearOverflow n.inst)
  revert h
  cases n.inst with
  | binaryOp => exact fun h => ⟨h.args, h.arguments, h.firm⟩
  | _ => exact id

theorem carries_inferDefinition : Carries S (plainConstraints S) g (inferDefinition d) fun _ _ => True := by
  refine .graph (.read fun e he => .read fun r _ => ?_)
  obtain ⟨range, clears⟩ := r
  refine .ite (fun _ => (Carries.edit minds_clearOverflow).andThen fun _ _ _ _ => ?_) fun _ => .edit minds_setRange
  exact .andThen (.note fun _ h => h) fun _ _ _ _ => .edit minds_setRange

theorem minds_inferPhi {isHeader : Bool} : Minds S g (inferPhi b isHeader d) := by
  refine .reading (.either (fun _ => .lifted fun induction _ => ?_) fun _ => ?_)
  · cases induction with
    | some range => exact minds_setRange
    | none => exact .lifted fun _ _ => minds_setRange
  · exact .lifted fun _ _ => minds_setRange

theorem minds_inferInitial : Minds S g (inferInitial d) := by
  refine .reading (.lifted fun v _ => ?_)
  cases v with
  | some v => exact minds_setRange
  | none => exact .value trivial

theorem carries_removeIfRedundant (hcheck : Inner S g check) :
    Carries S (plainConstraints S) g (removeIfRedundant check) fun _ _ => True := by
  refine (carries_arrayLength hcheck.mem).andThen fun _ _ hext _ =>
    .graph (.read fun _ _ => .ite (fun _ => ?_) fun _ => ?_)
  · exact .andThen (.edit (minds_remove (hcheck.loose.mono hext))) fun _ _ _ _ => .note fun _ h => h
  · exact .value trivial

theorem carries_inferInst {smis : List InstId} (hi : S.insts i) :
    Carries S (plainConstraints S) g (inferInst ctx smis i) fun _ _ => True := by
  refine .ite (fun _ => carries_inferDefinition) fun _ => .ite (fun _ => ?_) fun _ => .value trivial
  refine .graph (.read fun op hop => .ite (fun hcheck => ?_) fun _ => .value trivial)
  exact carries_removeIfRedundant ⟨hi, fun _ => plain_of_opcode hop (by rw [hcheck]; rfl)⟩

theorem carries_inferBlock {smis : List InstId} (hb : S.blocks b) :
    Carries S (plainConstraints S) g (inferBlock ctx smis b) fun _ _ => True := by
  refine .knowing fun hg => .graph ?_
  have hinsts (g' : FlowGraph) : Carries S (plainConstraints S) g' ((g.insts b).forM (inferInst ctx smis)) fun _ _ =>
    True :=
    .each fun i hi _ _ => carries_inferInst (hg.bounded.insts b i hb hi)
  have hphis (g' : FlowGraph) : Carries S (plainConstraints S) g' (do
      if ← g.isJoin b then
        let isHeader := (← g.block b).loop.isSome
        (← g.phis b).forM fun phi => do
          if (← (← getThe FlowGraph).isAlivePhi phi) && phi ∈ smis then inferPhi b isHeader phi
      (g.insts b).forM (inferInst ctx smis) : Analysis Unit) fun _ _ => True := by
    refine .read fun _ _ => .ite (fun _ => .read fun _ _ => .read fun _ _ => ?_) fun _ => hinsts g'
    refine .andThen (.each fun _ _ _ _ => .graph (.read fun _ _ => ?_)) fun _ g'' _ _ => hinsts g''
    exact .ite (fun _ => .edit minds_inferPhi) fun _ => .value trivial
  refine .ite (fun _ => .andThen (.each fun _ _ _ _ => .edit minds_inferInitial) fun _ g' _ _ => hphis g') fun _ =>
    hphis g

theorem carries_inferTree {smis : List InstId} (steps : Nat) {stack : List BlockId} (hstack : ∀ b ∈ stack, S.blocks b) :
    Carries S (plainConstraints S) g (inferTree ctx smis steps stack) fun _ _ => True := by
  induction steps generalizing g stack with
  | zero => cases stack with
    | nil => exact .value trivial
    | cons => exact .fault
  | succ steps ih =>
    cases stack with
    | nil => exact .value trivial
    | cons b stack =>
      rw [List.forall_mem_cons] at hstack
      refine (carries_inferBlock hstack.1).andThen fun _ g' _ _ => .knowing fun hg' => .graph (.read fun k hk => ih ?_)
      exact List.forall_mem_append.mpr ⟨hg'.bounded.below b k hstack.1 (block_eq_ok.mp hk), hstack.2⟩

/-! ## Removal of constraints -/

theorem minds_settleRange {unwrapped : List (InstId × InstId)} {loads : List InstId} :
    Minds S g (settleRange unwrapped loads d) := by
  refine .reading (.lifted fun r _ => ?_)
  cases r with
  | none => exact .value trivial
  | some r => exact .lifted fun _ _ => .lifted fun _ _ => minds_setRange

/-- What an instruction of the scope constrains may be read. -/
theorem Vetted.usable_of_unwrapWithin (hg : Vetted S g) {n : Nat} (ha : S.insts a) (h : unwrapWithin g n a = .ok d) :
    d = a ∨ Usable S g d := by
  induction n generalizing a with
  | zero => exact .inl (pure_eq_ok.mp h).symm
  | succ n ih =>
    obtain ⟨e, he, h⟩ := bind_eq_ok.mp h
    split at h
    · obtain ⟨x, hx, h⟩ := bind_eq_ok.mp h
      have husable : Usable S g x := hg.usable_of_inputs ha ⟨_, he, List.mem_of_getElem? (orFault_eq_ok.mp hx)⟩
      exact .inr ((ih husable.1 h).elim (fun heq => heq ▸ husable) id)
    · exact .inl (pure_eq_ok.mp h).symm

theorem minds_removeConstraints {constraints loads : List InstId} (hloose : ∀ c ∈ constraints, Loose S g c) :
    Minds S g (removeConstraints constraints loads) := by
  refine .knowing fun hg => .reading ?_
  -- a constraint that nothing reads may be outside the scope
  refine .andThen (Vets.mapM (P := fun x g' => S.insts x.1 → x.2 = x.1 ∨ Usable S g' x.2) ?_ ?_) fun xs g₁ hext₁ hxs =>
    ?_
  · exact fun x g₁ g₂ hext h hx => (h hx).imp_right fun h => h.mono hext
  · exact fun c _ g' hext => .lifted fun d hd => .value fun hc =>
      (hg.usable_of_unwrapWithin hc hd).imp_right fun h => h.mono hext
  · refine .andThen (.each fun x hx g' hext => .knowing fun hg' => minds_replaceUses fun n hn hne => ?_) fun _ _ hext₂
      _ => ?_
    · obtain ⟨u, hu⟩ := List.exists_mem_of_ne_nil _ hne
      have hc : Usable S g' x.1 := (hg'.uses x.1 n hn u hu).2
      exact (hxs x hx hc.1).elim (fun heq => heq ▸ hc) fun h => h.mono hext
    · have hloose (c : InstId) (hc : c ∈ constraints) := (hloose c hc).mono (hext₁.trans hext₂)
      refine .andThen (.each fun c hc _ hext => minds_remove ((hloose c hc).mono hext)) fun _ _ _ _ => ?_
      exact .reading (.lifted fun _ _ => .each fun _ _ _ _ => minds_settleRange)

/-! ## The stage -/

theorem minds_clearRanges : Minds S g clearRanges :=
  .reading (.lifted fun _ _ => .each fun _ _ _ _ => minds_setRange)

theorem carries_placeConstraints : Carries S (plainConstraints S) g placeConstraints fun _ _ => True := by
  refine .andThen (.edit minds_clearRanges) fun _ g₁ _ _ => .knowing fun hg₁ =>
    .graph (.readAll fun checks hchecks => ?_)
  refine .readAll fun values _ => .andThen (carries_insertConstraints fun c hc => ?_) fun _ g₂ _ _ => .value trivial
  obtain ⟨cs, hcs, hc⟩ := List.mem_flatten.mp hc
  obtain ⟨b, hb, hrun⟩ := forall₂_mem_right hchecks hcs
  obtain ⟨-, rfl⟩ := filterM_eq_ok.mp hrun
  have hblock : S.blocks b := hg₁.bounded.ordered b (.inr (List.mem_reverse.mp hb))
  exact hg₁.bounded.insts b c hblock (List.mem_of_mem_filter hc)

theorem carries_analyze : Carries S (plainConstraints S) g (Ranges.analyze ctx) fun _ _ => True := by
  refine .andThen carries_placeConstraints fun _ g₂ _ _ => .knowing fun hg₂ => ?_
  refine .state fun s _ => .graph (.andThen (carries_inferTree _ ?_) fun _ g₃ _ _ => ?_)
  · exact List.forall_mem_singleton.mpr hg₂.bounded.entries.1
  · exact .state fun _ hs => .state fun _ _ => .edit (minds_removeConstraints hs)

theorem minds_analyzeRanges : Minds S g (analyzeRanges ctx) := by
  refine (Vets.discarding minds_computeLoops).andThen fun _ g₁ _ _ => ?_
  exact (carries_analyze {} nofun).andThen fun _ _ _ _ => .value trivial

end Midend.Naming
