import Midend.Proofs.Reports.Honest

/-! # Stages that tell of every change

A stage that specializes calls, simplifies instructions, shares values or inserts conversions leaves the graph as it was
unless it tells of a change.
-/

namespace Midend.Reports

open FlowGraph Calls

variable {g : FlowGraph} {ctx : Context} {site : Site} {call i l r : InstId}

/-! ## Reading -/

theorem reads_argumentValue {k : Nat} : Reads g (argumentValue call k) :=
  .reading (.bind .lifted fun _ => .bind .lifted fun _ => .lifted)

theorem reads_argumentValues : Reads g (argumentValues call) :=
  .reading (.bind .lifted fun _ => .mapM fun _ => reads_argumentValue)

theorem reads_needsClassCheck : Reads g (needsClassCheck ctx site) := by
  unfold needsClassCheck
  refine .ite .value (.bind reads_argumentValue fun _ => .reading (.bind .lifted fun _ => ?_))
  split <;> exact .value

theorem reads_isMegamorphic {unary : InlineCache} : Reads g (isMegamorphic ctx site unary) :=
  .ite .value reads_needsClassCheck

/-! ## Comparisons -/

theorem affirms_setOperands {cls : ClassId} : Affirms (setOperands i cls) := .bind fun _ => .yes

theorem affirms_requireTwoSmis {c : Comparison} : Affirms (requireTwoSmis i c) :=
  .bind fun _ => .bind fun _ => affirms_setOperands

theorem honest_specializeRelational {c : Comparison} : Honest g (specializeRelational ctx i c) := by
  unfold specializeRelational
  refine .ite .no ?_
  split
  · exact .no
  · exact .ite affirms_requireTwoSmis.honest (.ite affirms_setOperands.honest (.ite affirms_setOperands.honest .no))

theorem affirms_specializeSmiOrNull {c : Comparison} {ic : InlineCache} : Affirms (specializeSmiOrNull i c ic) :=
  .bind fun _ => .bind fun _ => .bind fun _ => .bind fun _ => affirms_setOperands

theorem affirms_specializeNullEquality {c : Comparison} : Affirms (specializeNullEquality i c) := .bind fun _ => .yes

theorem honest_specializeEquality {c : Comparison} : Honest g (specializeEquality ctx i c) := by
  unfold specializeEquality
  refine .ite .no (.reading (.lifted fun _ => .ite affirms_specializeNullEquality.honest ?_))
  refine .lifted fun _ => .ite affirms_specializeNullEquality.honest ?_
  split
  · exact .no
  · refine .ite affirms_requireTwoSmis.honest (.ite affirms_setOperands.honest (.ite affirms_setOperands.honest ?_))
    exact .ite affirms_specializeSmiOrNull.honest .no

theorem honest_dropNumberCheck : Honest g (dropNumberCheck i) := by
  refine .reading (.lifted fun _ => ?_)
  split
  · refine .ite (.lifted fun _ => .ite (.lifted fun _ => .ite .no ?_) ?_) .no
    · exact (Affirms.bind fun _ => .yes).honest
    · exact (Affirms.bind fun _ => .yes).honest
  · exact .no

theorem honest_specializeComparison : Honest g (specializeComparison ctx i) := by
  refine .reading (.lifted fun _ => ?_)
  split
  · exact .no
  · split
    · exact honest_dropNumberCheck
    · exact honest_specializeEquality
    · exact honest_specializeRelational

/-! ## Operators -/

theorem affirms_replaceByDoubleOp {op : Token} : Affirms (replaceByDoubleOp call op l r) := .bind fun _ =>
    .bind fun _ => .yes

theorem affirms_replaceByMintOp {op : Token} : Affirms (replaceByMintOp call op l r) := .bind fun _ => .yes

theorem honest_replaceByMask : Honest g (replaceByMask call l r) := by
  refine .reading (.lifted fun _ => ?_)
  split
  · exact .no
  · exact (Affirms.bind fun _ => .bind fun _ => .bind fun _ => .yes).honest

theorem affirms_replaceBySmiOp {op : Token} : Affirms (replaceBySmiOp call op l r) :=
  .bind fun _ => .bind fun _ => .bind fun _ => .bind fun _ => .bind fun _ => .yes

theorem honest_replaceByBinaryOp : Honest g (replaceByBinaryOp ctx site) := by
  unfold replaceByBinaryOp
  refine .ite .no (.lifted fun _ => ?_)
  split
  · exact .no
  · refine .bind reads_argumentValue fun _ => .bind reads_argumentValue fun _ => ?_
    refine .ite affirms_replaceByDoubleOp.honest (.ite (.attemptIf affirms_replaceByMintOp.honest) ?_)
    exact .ite honest_replaceByMask affirms_replaceBySmiOp.honest

theorem honest_replaceByUnaryOp : Honest g (replaceByUnaryOp ctx site) := by
  refine .bind reads_argumentValue fun _ => .lifted fun _ => .ite ?_ (.ite ?_ (.ite (.lifted fun _ => .ite ?_ .no) .no))
  · exact (Affirms.bind fun _ => .bind fun _ => .yes).honest
  · exact (Affirms.bind fun _ => .yes).honest
  · exact (Affirms.bind fun _ => .bind fun _ => .bind fun _ => .yes).honest

/-! ## Elements -/

theorem honest_replaceByLoadIndexed : Honest g (replaceByLoadIndexed site) := by
  refine .lifted fun _ => ?_
  split
  · exact .no
  · exact .ite (Affirms.bind fun _ => .bind fun _ => .bind fun _ => .yes).honest .no

theorem honest_replaceByStoreIndexed : Honest g (replaceByStoreIndexed site) := by
  refine .lifted fun _ => ?_
  split
  · exact .no
  · refine .lifted fun _ => ?_
    split
    · exact .no
    · exact (Affirms.bind fun _ => .bind fun _ => .bind fun _ => .bind fun _ => .bind fun _ => .yes).honest
    · exact (Affirms.bind fun _ => .bind fun _ => .bind fun _ => .bind fun _ => .bind fun _ => .yes).honest

/-! ## Getters and setters -/

theorem affirms_inlineFieldGetter {field : Field} : Affirms (inlineFieldGetter ctx site field) :=
  .bind fun _ => .ite (.bind fun _ => .bind fun _ => .bind fun _ => .yes) (.bind fun _ => .bind fun _ => .yes)

theorem affirms_inlineLength {recognized : Recognized} {offset : Nat} {immutable : Bool} :
    Affirms (inlineLength site recognized offset immutable) :=
  .bind fun _ => .bind fun _ => .bind fun _ => .yes

theorem affirms_inlineCapacity : Affirms (inlineCapacity site) :=
  .bind fun _ => .bind fun _ => .bind fun _ => .bind fun _ => .yes

theorem affirms_inlineIsEmpty : Affirms (inlineIsEmpty site) :=
  .bind fun _ => .bind fun _ => .bind fun _ => .bind fun _ => .bind fun _ => .yes

theorem honest_inlineGetter : Honest g (inlineGetter ctx site) := by
  refine .lifted fun _ => .lifted fun _ => ?_
  split
  · exact .attemptIf affirms_inlineFieldGetter.honest
  · split
    · exact affirms_inlineCapacity.honest
    · exact .attemptIf affirms_inlineIsEmpty.honest
    · exact .attemptIf affirms_inlineLength.honest
    · exact .no

theorem affirms_inlineFieldSetter {field : Field} : Affirms (inlineFieldSetter ctx site field) := by
  refine .bind fun _ => .ite (.bind fun _ => ?_) ?_
  all_goals
    refine .bind fun _ => ?_
    refine .bind fun _ => ?_
    refine .bind fun _ => .ite ?_ ?_
    · exact .bind fun _ => .bind fun _ => .yes
    · exact .bind fun _ => .yes

theorem honest_inlineSetter {unary : InlineCache} : Honest g (inlineSetter ctx site unary) := by
  unfold inlineSetter
  refine .ite .no (.lifted fun _ => .lifted fun _ => ?_)
  split
  · exact affirms_inlineFieldSetter.honest
  · exact .no

/-! ## Methods -/

theorem affirms_inlineCharCodeAt {cls : ClassId} : Affirms (inlineCharCodeAt site cls) := .bind fun _ => .bind fun _ =>
    .yes

theorem affirms_inlineCharAt {cls : ClassId} : Affirms (inlineCharAt site cls) :=
  .bind fun _ => .bind fun _ => .bind fun _ => .yes

theorem affirms_inlineUnary {opcode : Opcode} {receiver : InstId} : Affirms (inlineUnary site opcode receiver) :=
  .bind fun _ => .bind fun _ => .yes

theorem affirms_inlineMathFunction {function : Recognized} : Affirms (inlineMathFunction site function) :=
  .bind fun _ => .bind fun _ => .bind fun _ => .yes

theorem honest_inlineDoubleMethod {method : Recognized} {receiver : InstId} :
    Honest g (inlineDoubleMethod site method receiver) := by
  unfold inlineDoubleMethod
  split
  case h_8 => exact .no
  case h_2 | h_3 => exact affirms_inlineMathFunction.honest
  all_goals exact affirms_inlineUnary.honest

theorem honest_inlineMethod : Honest g (inlineMethod ctx site) := by
  unfold inlineMethod
  refine .ite .no (.lifted fun _ => .lifted fun _ => .lifted fun _ => .bind reads_argumentValue fun _ => ?_)
  refine .ite affirms_inlineCharCodeAt.honest (.ite affirms_inlineCharAt.honest (.ite affirms_inlineUnary.honest ?_))
  exact .ite .no honest_inlineDoubleMethod

theorem affirms_foldTypeTest {value : InstId} {classes : InlineCache} {answer : Bool} :
    Affirms (foldTypeTest site value classes answer) :=
  .bind fun _ => .bind fun _ => .bind fun _ => .bind fun _ => .bind fun _ => .bind fun _ => .yes

theorem honest_inlineTypeTest : Honest g (inlineTypeTest ctx site) := by
  refine .reading (.lifted fun _ => .ite .no (.bind reads_argumentValue fun _ => .reading ?_))
  refine .bind reads_argumentValue fun _ => .lifted fun _ => ?_
  split
  · refine .lifted fun _ => .ite (.lifted fun outcome => ?_) (.bind .value fun outcome => ?_)
    all_goals
      cases outcome with
      | some answer => exact affirms_foldTypeTest.honest
      | none => exact (Affirms.bind fun _ => .yes).honest
  · exact .no

theorem honest_specializeStaticCall : Honest g (specializeStaticCall ctx call) := by
  refine .reading (.lifted fun _ => ?_)
  split
  · refine .lifted fun _ => .bind reads_argumentValues fun _ => ?_
    split
    case h_4 => exact .no
    all_goals exact (Affirms.bind fun _ => .yes).honest
  · exact .no

/-! ## Calls -/

theorem affirms_replaceByDispatch {targets : InlineCache} {withChecks : Bool} :
    Affirms (replaceByDispatch call targets withChecks) := by
  refine .bind fun _ => .bind fun _ => ?_
  split
  · exact .bind fun _ => .bind fun _ => .yes
  · exact .yes

theorem honest_dispatch {unary : InlineCache} : Honest g (dispatch ctx site unary) := by
  refine .ite (.bind reads_needsClassCheck fun _ => .bind .value fun _ => ?_) (.bind .value fun _ => ?_)
  all_goals
    refine .ite affirms_replaceByDispatch.honest (.ite ?_ .no)
    exact (Affirms.ite (.bind fun _ => affirms_replaceByDispatch) affirms_replaceByDispatch).honest

theorem honest_specializeSite : Honest g (specializeSite ctx site) := by
  unfold specializeSite
  refine .ite honest_inlineTypeTest (.lifted fun unary => .bind reads_isMegamorphic fun _ => .ite ?_ (.firstChange ?_))
  · exact (Affirms.bind fun _ => .yes).honest
  · simp only [List.forall_mem_cons, List.not_mem_nil, false_imp_iff, implies_true, and_true]
    exact ⟨.attemptIf honest_replaceByStoreIndexed, .attemptIf honest_replaceByLoadIndexed,
      .attemptIf honest_replaceByBinaryOp, .attemptIf honest_replaceByUnaryOp, .attemptIf honest_inlineGetter,
      .attemptIf honest_inlineSetter, honest_inlineMethod, honest_dispatch⟩

theorem honest_specializeCall : Honest g (specializeCall ctx call) := by
  refine .reading (.lifted fun _ => ?_)
  split
  · exact honest_specializeSite
  · exact .no

theorem honest_specialize : Honest g (specialize ctx) := by
  refine .visitInsts fun i => .reading (.lifted fun _ => ?_)
  split
  case h_7 => exact .no
  · exact honest_specializeCall
  · exact honest_specializeStaticCall
  all_goals exact honest_specializeComparison

theorem honest_foresee : Honest g (foresee ctx call) := by
  refine .reading (.lifted fun _ => ?_)
  split
  · refine .ite .no (.reading (.bind reads_argumentValue fun _ => .lifted fun _ => .ite .no ?_))
    split
    · exact (Affirms.bind fun _ => .yes).honest
    · exact .no
  · exact .no

theorem honest_narrowDispatch : Honest g (narrowDispatch call) := by
  refine .reading (.lifted fun _ => ?_)
  split
  · refine .reading (.bind reads_argumentValue fun _ => .lifted fun _ => .ite .no (.lifted fun _ => ?_))
    split
    · exact (Affirms.bind fun _ => .bind fun _ => .yes).honest
    · exact .no
  · exact .no

theorem honest_applyClasses : Honest g (applyClasses ctx) := by
  refine .visitInsts fun i => .reading (.lifted fun _ => ?_)
  split
  · exact .after honest_foresee (.bind fun _ => .yes) .no
  · exact honest_narrowDispatch
  · exact honest_dropNumberCheck
  · exact honest_dropNumberCheck
  · exact .no

/-! ## Local simplification -/

theorem honest_mergeComparison : Honest g (Simplify.mergeComparison i) := by
  refine .reading (.lifted fun _ => ?_)
  split
  · exact .no
  · refine Affirms.honest (.bind fun _ => .bind fun _ => .bind fun _ => .ite ?_ ?_)
    · exact .bind fun _ => .bind fun _ => .yes
    · exact .bind fun _ => .yes

theorem honest_simplify : Honest g (simplify ctx) := by
  refine .visitInsts fun i => .reading (.lifted fun _ => .ite honest_mergeComparison (.reading (.lifted fun _ => ?_)))
  split
  · exact (Affirms.bind fun _ => .yes).honest
  · exact .no

/-! ## Sharing -/

theorem shareInst_unchanged {values : Sharing.Values} :
    Leads True g (Sharing.shareInst values i) fun r g' => r.2 = false → g' = g := by
  simp only [Sharing.shareInst, Leads.bind_iff, Leads.get_iff, Leads.lift_iff]
  refine Yields.of_ok fun d _ => Yields.of_ok fun affected _ => ?_
  split
  · exact fun _ => rfl
  · rw [Leads.bind_iff, Leads.lift_iff]
    refine Yields.of_ok fun key _ => ?_
    split
    · rw [Leads.bind_iff]
      exact .of_ok fun _ _ _ h => absurd h Bool.noConfusion
    · exact fun _ => rfl

theorem shareBlock_unchanged {values : Sharing.Values} {b : BlockId} :
    Leads True g (Sharing.shareBlock values b) fun r g' => r.2 = false → g' = g := by
  unfold Sharing.shareBlock
  rw [Leads.bind_iff, Leads.get_iff]
  refine Leads.foldlM (fun _ (r : Sharing.Values × Bool) g' => r.2 = false → g' = g) (fun _ => rfl) ?_
  rintro done i rest ⟨values, changed⟩ g' - hkept
  rw [Leads.bind_iff]
  refine shareInst_unchanged.mono fun r g'' hr hnone => ?_
  obtain ⟨hchanged, hshared⟩ := Bool.or_eq_false_iff.mp hnone
  exact (hr hshared).trans (hkept hchanged)

theorem honest_shareTree {steps : Nat} {stack : List (BlockId × Sharing.Values)} :
    Honest g (Sharing.shareTree steps stack) := by
  induction steps generalizing g stack with
  | zero => cases stack with
    | nil => exact .no
    | cons => trivial
  | succ steps ih =>
    cases stack with
    | nil => exact .no
    | cons top stack =>
      obtain ⟨b, values⟩ := top
      unfold Honest Sharing.shareTree
      rw [Leads.bind_iff]
      refine shareBlock_unchanged.mono fun r g' hr => ?_
      obtain ⟨values, here⟩ := r
      simp only [Leads.bind_iff, Leads.get_iff, Leads.lift_iff]
      refine Yields.of_ok fun k _ => ih.mono fun below g'' hbelow hnone => ?_
      obtain ⟨hhere, hbelow'⟩ := Bool.or_eq_false_iff.mp hnone
      exact (hbelow hbelow').trans (hr hhere)

theorem honest_shareValues : Honest g shareValues := .reading honest_shareTree

/-! ## Representations -/

theorem honest_unboxPhi {unboxedMints : Bool} : Honest g (Representations.unboxPhi unboxedMints i) := by
  refine .reading (.lifted fun _ => ?_)
  split
  · exact .no
  · refine .lifted fun _ => ?_
    split
    · exact .ite .no (Affirms.bind fun _ => .yes).honest
    · exact .no

theorem honest_convertUse {source : Representation} {u : Use} : Honest g (Representations.convertUse i source u) := by
  refine .reading (.lifted fun _ => .ite .no (.lifted fun _ => ?_))
  split
  · exact .no
  · exact (Affirms.bind fun _ => .bind fun _ => .yes).honest

theorem honest_convertUses : Honest g (Representations.convertUses i) :=
  .reading (.lifted fun _ => .lifted fun _ => .anyChange fun _ _ => honest_convertUse)

theorem honest_convertBlock {b : BlockId} : Honest g (Representations.convertBlock b) := by
  refine .reading (.lifted fun _ => .after (.anyChange fun _ _ => ?_) ?_ ?_)
  · exact .reading (.lifted fun _ => .ite honest_convertUses .no)
  · exact .bind fun _ => .bind fun _ => .yes
  · refine .reading (.after (.anyChange fun _ _ => ?_) .yes .no)
    exact .reading (.lifted fun _ => .ite honest_convertUses .no)

theorem honest_selectRepresentations : Honest g (selectRepresentations ctx) := by
  refine .after (.reading (.anyChange fun _ _ => .reading (.lifted fun _ => .anyChange fun _ _ => honest_unboxPhi))) ?_
    ?_
  · refine .bind fun _ => ?_
    refine .bind fun _ => ?_
    refine .bind fun _ => ?_
    exact .bind fun _ => .yes
  · refine .reading (.after (.anyChange fun _ _ => honest_convertUses) ?_ ?_)
    · exact .bind fun _ => .bind fun _ => .yes
    · exact .reading (.after (.anyChange fun _ _ => honest_convertBlock) .yes .no)

/-! ## Hoisting -/

theorem honest_hoist {preHeader : BlockId} : Honest g (Hoisting.hoist i preHeader) := by
  refine .reading ?_
  dsimp only
  split
  · exact .no
  · refine .lifted fun _ => .ite .no (.lifted fun _ => .lifted fun _ => .ite .no ?_)
    refine Affirms.honest (.bind fun _ => .ite ?_ .yes)
    exact .bind fun _ => .yes

theorem honest_hoistThroughPhi {header preHeader : BlockId} :
    Honest g (Hoisting.hoistThroughPhi i header preHeader) := by
  refine .reading (.lifted fun _ => .lifted fun _ => ?_)
  split
  · exact .no
  · refine .lifted fun _ => .ite .no (.lifted fun _ => .ite (Affirms.bind fun _ => .yes).honest ?_)
    refine .lifted fun _ => .lifted fun _ => ?_
    split
    · exact .no
    · refine .lifted fun _ => .ite .no (.onlyIf honest_hoist ?_)
      refine .bind fun _ => ?_
      refine .bind fun _ => ?_
      refine .bind fun _ => ?_
      exact .bind fun _ => .yes

theorem honest_hoistVisit {header preHeader : BlockId} {written : Bool} :
    Honest g (Hoisting.visit header preHeader written i) := by
  refine .reading (.lifted fun _ => .lifted fun _ => .ite .no (.lifted fun _ => .ite honest_hoist (.ite ?_ .no)))
  exact .lifted fun _ => .lifted fun _ => .ite honest_hoistThroughPhi .no

theorem honest_hoistLoop {header preHeader : BlockId} : Honest g (Hoisting.hoistLoop header preHeader) :=
  .reading (.lifted fun _ => .lifted fun _ => .anyChange fun _ _ => .reading (.anyChange fun _ _ => honest_hoistVisit))

/-- Once loops are known, hoisting tells of every change. -/
theorem honest_hoistInvariants {headers : List BlockId} {g' : FlowGraph}
    (hloops : Flow.computeLoops g = .ok (headers, g')) :
    Leads True g hoistInvariants fun changed g'' => changed = false → g'' = g' := by
  unfold hoistInvariants
  rw [Leads.bind_iff]
  refine .of_ok fun headers' g₁ h => ?_
  cases hloops.symm.trans h
  refine Honest.anyChange fun header _ => .reading (.lifted fun _ => ?_)
  split
  · exact honest_hoistLoop
  · exact .no

end Midend.Reports
