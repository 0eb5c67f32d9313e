import Midend.Proofs.Hoisting.Walk
import Midend.Proofs.Naming.Calls
import Midend.Proofs.Reports.Records
import Midend.Proofs.Simplify

/-! # Names in the stages that rewrite

What stands in for an instruction is one of its inputs, a constant, or new. Stages that only record classes have nothing
to do with names.
-/

namespace Midend.Naming

open FlowGraph

variable {α β : Type} {S : Scope} {g g' : FlowGraph} {a d i l r new old : InstId} {b : BlockId} {e : Inst}
    {ctx : Context}

/-! ## Simplification -/

section

open Simplify

variable {h : Hierarchy}

def Inputs (g : FlowGraph) (i d : InstId) : Prop := ∃ e, g.inst i = .ok e ∧ d ∈ e.args

theorem Vetted.usable_of_inputs (hg : Vetted S g) (hi : S.insts i) (hd : Inputs g i d) : Usable S g d := by
  obtain ⟨e, he, hmem⟩ := hd
  exact (hg.watched_of_inst hi he).args d hmem

theorem inputs_of_arg {k : Nat} (h : g.arg i k = .ok d) : Inputs g i d := by
  obtain ⟨n, hn, hk⟩ := arg_eq_ok.mp h
  exact ⟨n.inst, inst_eq_ok.mpr ⟨n, hn, rfl⟩, List.mem_of_getElem? hk⟩

theorem eq_of_applyIdentity {doubles : Bool} {op : Token} (h : applyIdentity g doubles op l r = .ok (some d)) :
    d = l ∨ d = r := by
  obtain ⟨c, -, h⟩ := bind_eq_ok.mp h
  split at h
  · exact .inl (Option.some_inj.mp (pure_eq_ok.mp h)).symm
  · exact .inr (Option.some_inj.mp (pure_eq_ok.mp h)).symm
  · obtain ⟨e, -, h⟩ := bind_eq_ok.mp h
    have h := pure_eq_ok.mp h
    split at h
    · exact .inr (Option.some_inj.mp h).symm
    · cases h
  · cases pure_eq_ok.mp h

theorem inputs_of_simplifyBinaryOp {doubles : Bool} (h : simplifyBinaryOp g doubles i = .ok (some (.standIn d))) :
    Inputs g i d := by
  obtain ⟨e, he, h⟩ := bind_eq_ok.mp h
  split at h
  next o op l r v =>
    obtain ⟨known, hknown, h⟩ := bind_eq_ok.mp h
    have hside : d = l ∨ d = r := by
      cases known with
      | some d' =>
        cases pure_eq_ok.mp h
        exact eq_of_applyIdentity hknown
      | none =>
        obtain ⟨known', hknown', h⟩ := bind_eq_ok.mp h
        obtain ⟨d', rfl, hd⟩ := Option.map_eq_some_iff.mp (pure_eq_ok.mp h)
        cases hd
        exact (eq_of_applyIdentity hknown').symm
    exact ⟨_, he, by simpa [Inst.args] using hside⟩
  · cases pure_eq_ok.mp h

theorem inputs_of_tests {tested : Comparison} (h : Tests g i tested) : Inputs g i tested.left := by
  obtain ⟨n, hn, htested⟩ := h.comparison
  exact ⟨n.inst, inst_eq_ok.mpr ⟨n, hn, rfl⟩, args_of_comparison? htested ▸ List.mem_cons_self⟩

theorem inputs_of_testedBoolean? (h : testedBoolean? g i = .ok (some d)) : Inputs g i d := by
  obtain ⟨tested, htests, rfl⟩ := tests_of_testedBoolean? h
  exact inputs_of_tests htests

theorem not_standIn_of_dropIf {condition : Bool} : dropIf condition ≠ some (.standIn d) := by
  unfold dropIf
  split <;> exact nofun

theorem not_standIn_of_simplifyClassCheck : simplifyClassCheck g i ≠ .ok (some (.standIn d)) := by
  intro h
  obtain ⟨cls, -, h⟩ := bind_eq_ok.mp h
  obtain ⟨e, -, h⟩ := bind_eq_ok.mp h
  split at h
  · split at h
    · cases pure_eq_ok.mp h
    · obtain ⟨known, -, h⟩ := bind_eq_ok.mp h
      exact not_standIn_of_dropIf (pure_eq_ok.mp h)
  · cases pure_eq_ok.mp h

theorem not_standIn_of_simplifyEitherNonSmi : simplifyEitherNonSmi g i ≠ .ok (some (.standIn d)) := by
  intro h
  obtain ⟨cls, -, h⟩ := bind_eq_ok.mp h
  split at h
  · cases pure_eq_ok.mp h
  · obtain ⟨cls', -, h⟩ := bind_eq_ok.mp h
    exact not_standIn_of_dropIf (pure_eq_ok.mp h)

theorem inputs_of_simplifyAssertion {type : ClassId} {value : InstId}
    (he : g.inst i = .ok (.assertAssignable type value))
    (ho : simplifyAssertion h g i type value = .ok (some (.standIn d))) : Inputs g i d := by
  have hvalue : Inputs g i value := ⟨_, he, List.mem_singleton_self value⟩
  obtain ⟨cls, -, ho⟩ := bind_eq_ok.mp ho
  split at ho
  · cases pure_eq_ok.mp ho
    exact hvalue
  · obtain ⟨e, -, ho⟩ := bind_eq_ok.mp ho
    split at ho
    · have ho := pure_eq_ok.mp ho
      split at ho
      · cases ho
        exact hvalue
      · cases ho
    · cases pure_eq_ok.mp ho

theorem inputs_of_outcome? (ho : outcome? h g i = .ok (some (.standIn d))) : Inputs g i d := by
  obtain ⟨o, -, ho⟩ := bind_eq_ok.mp ho
  split at ho
  · exact inputs_of_simplifyBinaryOp ho
  · exact inputs_of_simplifyBinaryOp ho
  · exact inputs_of_simplifyBinaryOp ho
  · obtain ⟨cls, -, ho⟩ := bind_eq_ok.mp ho
    split at ho
    · obtain ⟨a, ha, ho⟩ := bind_eq_ok.mp ho
      cases pure_eq_ok.mp ho
      exact inputs_of_arg ha
    · cases pure_eq_ok.mp ho
  · obtain ⟨e, he, ho⟩ := bind_eq_ok.mp ho
    split at ho
    · exact inputs_of_simplifyAssertion he ho
    · cases pure_eq_ok.mp ho
  · obtain ⟨tested, htested, ho⟩ := bind_eq_ok.mp ho
    obtain ⟨d', rfl, hd⟩ := Option.map_eq_some_iff.mp (pure_eq_ok.mp ho)
    cases hd
    exact inputs_of_testedBoolean? htested
  · exact absurd ho not_standIn_of_simplifyClassCheck
  · obtain ⟨cls, -, ho⟩ := bind_eq_ok.mp ho
    exact absurd (pure_eq_ok.mp ho) not_standIn_of_dropIf
  · exact absurd ho not_standIn_of_simplifyEitherNonSmi
  · cases pure_eq_ok.mp ho

theorem minds_ensureSsaIndex : Minds S g (Edit.ensureSsaIndex new old) := by
  refine .reading (.lifted fun _ _ =>
    .either (fun _ => .lifted fun _ _ => .either (fun _ => ?_) fun _ => .value trivial) fun _ => ?_)
  · exact .discarding vets_allocSsaIndex.minds
  · exact .value trivial

theorem plain_of_outcome? {o : Outcome} (ho : outcome? h g i = .ok (some o)) : g.Plain i := by
  obtain ⟨op, hop, ho⟩ := bind_eq_ok.mp ho
  refine plain_of_opcode hop ?_
  split at ho
  case h_10 => cases pure_eq_ok.mp ho
  all_goals rfl

theorem minds_apply {o : Outcome} (ho : ∀ d, o = .standIn d → Usable S g d) (hplain : g.Plain i) :
    Minds S g (apply i o) := by
  cases o with
  | drop => exact minds_remove (loose_of_plain hplain)
  | standIn d =>
    refine minds_ensureSsaIndex.andThen fun _ _ hext _ => ?_
    exact minds_replaceByExisting (fun _ _ _ => (ho d rfl).mono hext) (loose_of_plain (hplain.mono hext))

theorem inputs_of_mergeable? {c : Comparison} (hm : mergeable? g i = .ok (some (d, c))) :
    Inputs g i d ∧ g.inst d = .ok (.compare c) := by
  obtain ⟨tested, hmergeable, rfl⟩ := mergeable_of_mergeable? hm
  obtain ⟨n, hn, hc, -⟩ := hmergeable.comparison
  exact ⟨inputs_of_tests hmergeable.tests, inst_eq_ok.mpr ⟨n, hn, hc⟩⟩

theorem minds_mergeComparison (hi : S.insts i) : Minds S g (mergeComparison i) := by
  refine .knowing fun hg => .reading (.lifted fun m hm => ?_)
  split
  · exact .value trivial
  next compare c =>
    obtain ⟨hinputs, hcompare⟩ := inputs_of_mergeable? hm
    have hc := hg.comparable (hg.usable_of_inputs hi hinputs).1 hcompare rfl
    have hplain : g.Plain compare := plain_of_inst hcompare (Comparison.opcode_traits c).2.2
    refine (minds_setArg hi hc.1).andThen fun _ _ hext₁ _ =>
      (minds_setArg hi (hc.2.mono hext₁)).andThen fun _ _ hext₂ _ => ?_
    refine .andThen (minds_setComparison fun _ h => h) fun _ _ hext₃ _ => ?_
    have hplain := hplain.mono ((hext₁.trans hext₂).trans hext₃)
    refine .either (fun _ => minds_copyDeoptTarget.andThen fun _ _ hext₄ _ => ?_) fun _ => ?_
    · exact (minds_remove (loose_of_plain (hplain.mono hext₄))).andThen fun _ _ _ _ => .value trivial
    · exact (minds_remove (loose_of_plain hplain)).andThen fun _ _ _ _ => .value trivial

theorem minds_simplify : Minds S g (simplify ctx) := by
  refine .visitInsts fun i g hi => .reading (.lifted fun _ _ => .either (fun _ => minds_mergeComparison hi) fun _ => ?_)
  refine .knowing fun hg => .reading (.lifted fun o ho => ?_)
  split
  next o =>
    refine (minds_apply (fun d hd => ?_) (plain_of_outcome? ho)).andThen fun _ _ _ _ => .value trivial
    subst hd
    exact hg.usable_of_inputs hi (inputs_of_outcome? ho)
  · exact .value trivial

end

/-! ## Classes -/

theorem Vetted.of_onlyRecords (hg : Vetted S g) (h : Reports.OnlyRecords g g') : Vetted S g' ∧ g.Extends g' ∧ True := by
  obtain ⟨reaching, κ, rfl⟩ := h
  have hc : Changes g (({ g with reaching } : FlowGraph).mapNodes fun i n => { n with cls := κ i n }) (Kept S g) :=
    .mapNodes (f := fun i n => { n with cls := κ i n }) rfl fun i n => .of_same rfl rfl fun _ hu => .inl hu
  exact ⟨hg.changed hc rfl rfl (hg.bounded.congr rfl rfl rfl rfl rfl) hg.stays, extends_of_changes hc, trivial⟩

theorem minds_propagateSmis : Minds S g propagateSmis := fun hg =>
  .of_ok fun _ _ hrun => hg.of_onlyRecords (Reports.onlyRecords_propagateSmis hrun)

section

open Classes

variable {h : Hierarchy}

theorem minds_visitParameters : Minds S g (visitParameters ctx) := by
  refine .reading (.anyChange fun d _ g' _ => .reading (.lifted fun _ _ => ?_))
  split
  · exact minds_setClass
  · exact .value trivial

theorem minds_visitPhi {phi : InstId} : Minds S g (visitPhi phi) :=
  .reading (.lifted fun _ _ => .andThen (Vets.mapM (P := fun _ _ => True) (fun _ _ _ _ h => h) fun _ _ _ _ =>
  .read fun _ _ =>
    trivial) fun _ _ _ _ => minds_setClass.andThen fun _ _ _ _ => .value trivial)

theorem minds_eliminateCheck (hi : S.insts i) : Minds S g (eliminateCheck h i) := by
  refine .knowing fun hg => .reading (.lifted fun e he => ?_)
  have hinput (a : InstId) (ha : a ∈ e.args) (hplain : e.isTerminator = false) : Minds S g (do
      Edit.replaceByExisting i a
      return true) := by
    have husable := hg.usable_of_inputs hi ⟨e, he, ha⟩
    have hloose := loose_of_plain (S := S) (plain_of_inst he hplain)
    refine (minds_replaceByExisting (fun _ _ _ => husable) hloose).andThen fun _ _ _ _ => ?_
    exact .value trivial
  split
  · refine .lifted fun known _ => ?_
    split
    · exact .either (fun _ => hinput _ (List.mem_singleton_self _) rfl) fun _ => .value trivial
    · exact .value trivial
  · exact .lifted fun _ _ => .either (fun _ => hinput _ (List.mem_singleton_self _) rfl) fun _ => .value trivial
  · have hplain : g.Plain i := plain_of_inst he rfl
    refine .lifted fun known _ => ?_
    split
    · refine vets_getConstant.andThen fun _ _ hext hanswer => ?_
      have hloose := loose_of_plain (S := S) (hplain.mono hext)
      refine (minds_replaceByExisting (fun _ _ _ => hanswer) hloose).andThen fun _ _ _ _ => ?_
      exact .value trivial
    · exact .value trivial
  · exact .value trivial

theorem minds_visitInst (hi : S.insts i) : Minds S g (Classes.visitInst h i) := by
  refine .reading (.either (fun _ => .value trivial) fun _ => (minds_eliminateCheck hi).andThen fun _ _ _ _ => ?_)
  refine .either (fun _ => .value trivial) fun _ => .reading (.lifted fun _ _ => ?_)
  exact .either (fun _ => minds_setClass) fun _ => .value trivial

theorem minds_visitBlocks : Minds S g (visitBlocks h) := by
  refine .knowing fun hg => .reading (.anyChange fun b hb g₁ _ => .reading (.lifted fun _ _ => ?_))
  have hblock : S.blocks b := hg.bounded.ordered b (.inr (List.mem_reverse.mp hb))
  refine .andThen (.anyChange fun phi _ g₂ _ => ?_) fun _ g₂ _ _ => .knowing fun hg₂ => .reading ?_
  · exact .reading (.lifted fun _ _ => .either (fun _ => minds_visitPhi) fun _ => .value trivial)
  · refine .andThen (.anyChange fun i hi g₃ _ => ?_) fun _ _ _ _ => .value trivial
    exact minds_visitInst (hg₂.bounded.insts b i hblock hi)

theorem minds_settle (rounds : Nat) : Minds S g (settle h rounds) := by
  induction rounds generalizing g with
  | zero => exact .fault
  | succ rounds ih =>
    refine minds_visitBlocks.andThen fun _ _ _ _ => .either (fun _ => ?_) fun _ => .value trivial
    exact (Vets.discarding ih).andThen fun _ _ _ _ => .value trivial

theorem minds_propagateClasses : Minds S g (propagateClasses ctx) :=
  minds_visitParameters.andThen fun _ _ _ _ => .reading ((minds_settle _).andThen fun _ _ _ _ => .value trivial)

end

/-! ## Representations -/

section

open Representations

theorem minds_unboxPhi {unboxedMints : Bool} : Minds S g (unboxPhi unboxedMints i) := by
  refine .reading (.lifted fun _ _ => ?_)
  split
  · exact .value trivial
  · refine .lifted fun e he => ?_
    split
    · refine .either (fun _ => .value trivial) fun _ => ?_
      refine .andThen (minds_setInst he rfl rfl fun _ h => ?_) fun _ _ _ _ => .value trivial
      exact ⟨h.args, h.arguments, fun _ _ => rfl⟩
    · exact .value trivial

theorem vets_insertStep {before value : InstId} {opcode : Opcode} (hvalue : Usable S g value)
    (hop : opcode.isTerminator = false) : Vets S g (insertStep before value opcode) fun d g' => Usable S g' d := by
  refine (vets_addInst (addable_one (by rw [← hop]; rfl) hvalue)).andThen fun new g₁ _ hnew =>
    .reading (.lifted fun _ _ => ?_)
  have hrest (g : FlowGraph) (hnew : Inner S g new) : Vets S g (do
      Edit.insertBefore before new
      discard <| Edit.allocSsaIndex new
      return new) fun d g' => Usable S g' d := by
    refine (minds_insertBefore hnew).andThen fun _ _ _ _ => ?_
    exact .andThen (.ignoring (vets_allocSsaIndex.mono fun _ _ _ h => h)) fun _ _ _ hnamed =>
      .value ⟨hnew.mem, .inr hnamed⟩
  refine .lifted fun _ _ => .either (fun _ => ?_) fun _ => hrest g₁ hnew
  exact minds_copyDeoptTarget.andThen fun _ g₂ hext _ => hrest g₂ (hnew.mono hext)

theorem vets_insertDouble {before : InstId} (hd : Usable S g d) :
    Vets S g (insertDouble before d) fun d g' => Usable S g' d := by
  refine .reading (.lifted fun v _ => ?_)
  cases v with
  | some v => exact vets_getConstant.andThen fun _ _ _ hconstant => vets_insertStep hconstant rfl
  | none => exact .reading (.lifted fun _ _ => .either (fun _ => vets_insertStep hd rfl) fun _ =>
      vets_insertStep hd rfl)

theorem vets_insertConversion {before : InstId} {source target : Representation} (hd : Usable S g d) :
    Vets S g (insertConversion before d source target) fun d g' => Usable S g' d := by
  unfold insertConversion
  split
  case h_1 | h_2 | h_3 => exact .value hd
  case h_5 => exact vets_insertDouble hd
  case h_8 | h_9 => exact (vets_insertStep hd rfl).andThen fun _ _ _ h => vets_insertStep h rfl
  all_goals exact vets_insertStep hd rfl

theorem minds_convertUse {source : Representation} {u : Use} (hu : S.insts u.user) (hd : Usable S g d) :
    Minds S g (convertUse d source u) := by
  refine .reading (.lifted fun _ _ => .either (fun _ => .value trivial) fun _ => .lifted fun _ _ => ?_)
  split
  · exact .value trivial
  · refine (vets_insertConversion hd).andThen fun _ _ _ h => ?_
    exact (minds_setArg hu h).andThen fun _ _ _ _ => .value trivial

theorem minds_convertUses : Minds S g (convertUses d) := by
  refine .knowing fun hg => .reading (.lifted fun _ _ => .lifted fun us hus => .anyChange fun u hu g' hext => ?_)
  obtain ⟨huser, hd⟩ := hg.uses_of_inputUses hus hu
  exact minds_convertUse huser (hd.mono hext)

theorem minds_convertBlock : Minds S g (convertBlock b) := by
  refine .reading (.lifted fun _ _ => .andThen (.anyChange fun _ _ _ _ => ?_) fun _ _ _ _ => .reading ?_)
  · exact .reading (.lifted fun _ _ => .either (fun _ => minds_convertUses) fun _ => .value trivial)
  · refine .andThen (.anyChange fun _ _ _ _ => ?_) fun _ _ _ _ => .value trivial
    exact .reading (.lifted fun _ _ => .either (fun _ => minds_convertUses) fun _ => .value trivial)

theorem minds_selectRepresentations : Minds S g (selectRepresentations ctx) := by
  refine .andThen (.reading (.anyChange fun _ _ _ _ =>
    .reading (.lifted fun _ _ => .anyChange fun _ _ _ _ => minds_unboxPhi))) fun _ _ _ _ => .reading ?_
  refine .andThen (.anyChange fun _ _ _ _ => minds_convertUses) fun _ _ _ _ => .reading ?_
  exact .andThen (.anyChange fun _ _ _ _ => minds_convertBlock) fun _ _ _ _ => .value trivial

end

/-! ## Hoisting -/

section

open Hoisting

variable {header preHeader : BlockId}

/-- Nothing that ends a block is moved. -/
theorem Watched.not_isTerminator_of_isMovable {written : Bool} (h : Watched S g e) (hstrict : S.strict)
    (hmove : isMovable written e = .ok true) : e.isTerminator = false := by
  unfold isMovable at hmove
  split at hmove
  · cases pure_eq_ok.mp hmove
  · split at hmove
    · rfl
    · obtain ⟨affected, haffected, hmove⟩ := bind_eq_ok.mp hmove
      obtain rfl : affected = false := by simpa using pure_eq_ok.mp hmove
      exact h.firm hstrict haffected

theorem minds_hoist (hi : Inner S g i) : Minds S g (hoist i preHeader) := by
  refine .reading ?_
  split
  · exact .value trivial
  · refine .lifted fun _ _ => ?_
    refine .either (fun _ => .value trivial) fun _ => ?_
    refine .lifted fun _ _ => ?_
    refine .lifted fun _ _ => ?_
    refine .either (fun _ => .value trivial) fun _ => ?_
    refine (minds_moveBefore hi).andThen fun _ _ _ _ => ?_
    refine .either (fun _ => ?_) fun _ => ?_
    · exact minds_copyDeoptTarget.andThen fun _ _ _ _ => .value trivial
    · exact .value trivial

theorem minds_hoistThroughPhi (hi : Inner S g i) : Minds S g (hoistThroughPhi i header preHeader) := by
  refine .knowing fun hg => .reading (.lifted fun phi hphi => .lifted fun _ _ => ?_)
  have hmem : S.insts phi := (hg.usable_of_arg hi.mem hphi).1
  split
  · exact .value trivial
  · refine .lifted fun _ _ => ?_
    refine .either (fun _ => .value trivial) fun _ => ?_
    refine .lifted fun _ _ => ?_
    refine .either (fun _ => ?_) fun _ => ?_
    · exact (minds_remove hi.loose).andThen fun _ _ _ _ => .value trivial
    refine .lifted fun _ _ => .lifted fun _ _ => ?_
    split
    · exact .value trivial
    · refine .lifted fun _ _ => ?_
      refine .either (fun _ => .value trivial) fun _ => ?_
      refine (minds_hoist hi).andThen fun _ _ _ _ => ?_
      refine .either (fun _ => .value trivial) fun _ => .knowing fun hg' => .reading (.lifted fun a ha => ?_)
      refine (minds_setArg hi.mem (hg'.usable_of_arg hmem ha)).andThen fun _ _ _ _ => ?_
      exact (Vets.discarding minds_setClass).andThen fun _ _ _ _ => .value trivial

theorem minds_hoistVisit {written : Bool} (hi : S.insts i) :
    Minds S g (Hoisting.visit header preHeader written i) := by
  refine .knowing fun hg => ?_
  refine .reading (.lifted fun d hd => ?_)
  refine .lifted fun movable hmovable => ?_
  cases movable with
  | false => exact .value trivial
  | true =>
    have hinner : Inner S g i := ⟨hi, fun hstrict =>
      plain_of_inst hd ((hg.watched_of_inst hi hd).not_isTerminator_of_isMovable hstrict hmovable)⟩
    refine .lifted fun invariant _ => ?_
    refine .either (fun hinvariant => minds_hoist hinner) fun hvariant => ?_
    -- Only checks of phis are left.
    refine .either (fun hcheck => ?_) fun hother => .value trivial
    refine .lifted fun value hvalue => ?_
    refine .lifted fun opcode hopcode => ?_
    exact .either (fun hphi => minds_hoistThroughPhi hinner) fun hother => .value trivial

theorem minds_hoistLoop : Minds S g (hoistLoop header preHeader) := by
  refine .knowing fun hg => .reading (.lifted fun blocks hblocks => .lifted fun _ _ => .anyChange fun b hb g' hext =>
    ?_)
  have hblock : S.blocks b := by
    obtain ⟨k, -, hblocks⟩ := bind_eq_ok.mp hblocks
    obtain ⟨n, -, hn⟩ := forall₂_mem_right (mapM_eq_ok.mp hblocks) hb
    exact hg.bounded.ordered b (.inl (List.mem_of_getElem? (orFault_eq_ok.mp hn)))
  exact .knowing fun hg' => .reading (.anyChange fun i hi _ _ => minds_hoistVisit (hg'.bounded.insts b i hblock hi))

theorem minds_hoistInvariants : Minds S g hoistInvariants := by
  refine minds_computeLoops.andThen fun _ _ _ _ => .anyChange fun _ _ _ _ => .reading (.lifted fun _ _ => ?_)
  split
  · exact minds_hoistLoop
  · exact .value trivial

end

end Midend.Naming
