import Midend.Proofs.Naming.Edits
import Midend.Proofs.Reports.Rewrites

/-! # Names around calls

Guards, conversions of operands and the instructions that take the place of a call read arguments of that call, the
inputs of a comparison, or what has just got a name.
-/

namespace Midend.Naming

open FlowGraph Calls

variable {α β : Type} {S : Scope} {g g' : FlowGraph} {a b c i call value l r : InstId} {e : Inst} {site : Site}
  {ctx : Context}

/-! ## Reading -/

theorem Vets.read {x : Except Fault α} {post : α → FlowGraph → Prop} (h : ∀ y, x = .ok y → post y g) :
    Vets S g (liftM x : Edit α) post := by
  intro hg
  rw [Leads.lift_iff]
  exact Yields.of_ok fun y hy => ⟨hg, .refl g, h y hy⟩

theorem Vets.of_reads {m : Edit α} (h : Reports.Reads g m) : Minds S g m := by
  refine fun hg => Leads.mono h ?_
  rintro _ _ rfl
  exact ⟨hg, .refl _, trivial⟩

theorem Vets.discarding {m : Edit α} (hm : Minds S g m) : Minds S g (discard m) :=
    .ignoring (hm.mono fun _ _ _ _ => trivial)

theorem Vets.mapM {xs : List α} {f : α → Edit β} {P : β → FlowGraph → Prop}
    (hP : ∀ y g g', g.Extends g' → P y g → P y g') (hf : ∀ x ∈ xs, ∀ g', g.Extends g' → Vets S g' (f x) P) :
    Vets S g (xs.mapM f) fun ys g' => ∀ y ∈ ys, P y g' := by
  induction xs generalizing g with
  | nil => exact .value (List.forall_mem_nil _)
  | cons x xs ih =>
    rw [List.forall_mem_cons] at hf
    rw [List.mapM_cons]
    refine (hf.1 g (.refl g)).andThen fun y g₁ hext₁ hy => ?_
    refine (ih fun x hx g' hext => hf.2 x hx g' (hext₁.trans hext)).andThen fun ys g₂ hext₂ hys => .value ?_
    exact List.forall_mem_cons.mpr ⟨hP y g₁ g₂ hext₂ hy, hys⟩

/-! ## What instructions refer to -/

theorem addable_of_parts {as : List InstId} (h : (e.args, e.arguments, e.isTerminator) = (as, [], false))
    (has : ∀ a ∈ as, Usable S g a) : Addable S g e := by
  obtain ⟨hargs, h⟩ := Prod.mk.inj h
  obtain ⟨harguments, hplain⟩ := Prod.mk.inj h
  exact ⟨hargs ▸ has, harguments ▸ List.forall_mem_nil _, hplain⟩

theorem addable_one (h : (e.args, e.arguments, e.isTerminator) = ([a], [], false)) (ha : Usable S g a) :
    Addable S g e :=
  addable_of_parts h (List.forall_mem_singleton.mpr ha)

theorem addable_two (h : (e.args, e.arguments, e.isTerminator) = ([a, b], [], false)) (ha : Usable S g a)
    (hb : Usable S g b) : Addable S g e :=
  addable_of_parts h (List.forall_mem_cons.mpr ⟨ha, List.forall_mem_singleton.mpr hb⟩)

theorem addable_three (h : (e.args, e.arguments, e.isTerminator) = ([a, b, c], [], false)) (ha : Usable S g a)
    (hb : Usable S g b) (hc : Usable S g c) : Addable S g e :=
  addable_of_parts h (List.forall_mem_cons.mpr ⟨ha, List.forall_mem_cons.mpr ⟨hb, List.forall_mem_singleton.mpr hc⟩⟩)

theorem addable_of_classGuard {ic : InlineCache} (hvalue : Usable S g value) (he : classGuard ic value = .ok e) :
    Addable S g e := by
  have hguard : e = .checkClass ic value ∨ e = .unary .checkSmi value := by
    unfold classGuard at he
    dsimp only at he
    split at he
    case isTrue =>
      obtain ⟨cls, -, he⟩ := bind_eq_ok.mp he
      split at he
      · exact .inr (pure_eq_ok.mp he).symm
      · exact .inl (pure_eq_ok.mp he).symm
    case isFalse => exact .inl (pure_eq_ok.mp he).symm
  obtain rfl | rfl := hguard
  · exact addable_one rfl hvalue
  · exact addable_one rfl hvalue

/-- The instruction belongs to the scope, and its value has to have a name. Another instruction may take its place. -/
structure Replaceable (S : Scope) (g : FlowGraph) (i : InstId) : Prop where
  inst : S.insts i
  valued : g.Valued i

theorem Replaceable.mono (h : Replaceable S g i) (hext : g.Extends g') : Replaceable S g' i :=
  ⟨h.inst, h.valued.mono hext⟩

/-! ## Arguments -/

theorem vets_argumentValue (hcall : S.insts call) {k : Nat} :
    Vets S g (argumentValue call k) fun v g' => Usable S g' v := by
  refine .knowing fun hg => .reading (.lifted fun e he => .lifted fun push hpush => .read fun v hv => ?_)
  have hmem : push ∈ e.arguments := List.mem_of_getElem? (orFault_eq_ok.mp hpush)
  exact hg.usable_of_arg ((hg.watched_of_inst hcall he).arguments push hmem).mem hv

theorem vets_argumentValues (hcall : S.insts call) :
    Vets S g (argumentValues call) fun vs g' => ∀ v ∈ vs, Usable S g' v :=
  .reading (.lifted fun _ _ => .mapM (fun _ _ _ hext h => h.mono hext) fun _ _ _ _ => vets_argumentValue hcall)

/-! ## Guards -/

theorem minds_insertCheck (he : Addable S g e) : Minds S g (insertCheck call e) :=
  (vets_addInst he).andThen fun _ _ _ hcheck => minds_copyDeoptTarget.andThen fun _ _ hext _ =>
    minds_insertBefore (hcheck.mono hext)

theorem vets_insertValue (he : Addable S g e) : Vets S g (insertValue call e) fun i g' => Usable S g' i :=
  (vets_addInst he).andThen fun _ _ _ hi => (minds_insertBefore hi).andThen fun _ _ _ _ =>
    .andThen (.ignoring (vets_allocSsaIndex.mono fun _ _ _ hnamed => hnamed)) fun _ _ _ hnamed =>
    .value ⟨hi.mem, .inr hnamed⟩

theorem minds_insertCheckSmi (hvalue : Usable S g value) : Minds S g (insertCheckSmi call value) :=
  minds_insertCheck (addable_one rfl hvalue)

theorem minds_requireSmi (hvalue : Usable S g value) : Minds S g (requireSmi call value) :=
  .reading (.lifted fun _ _ => .either (fun _ => minds_insertCheckSmi hvalue) fun _ => .value trivial)

theorem minds_insertClassCheck {ic : InlineCache} (hvalue : Usable S g value) :
    Minds S g (insertClassCheck call value ic) :=
  .lifted fun _ he => minds_insertCheck (addable_of_classGuard hvalue he)

theorem minds_insertReceiverCheck (hsite : S.insts site.inst) : Minds S g (insertReceiverCheck site) :=
  (vets_argumentValue hsite).andThen fun _ _ _ hreceiver => .lifted fun _ _ => minds_insertClassCheck hreceiver

theorem minds_needsClassCheck : Minds S g (needsClassCheck ctx site) := .of_reads Reports.reads_needsClassCheck

theorem minds_guarded {m : Edit Bool} (hcall : S.insts site.inst) (hm : ∀ g', g.Extends g' → Minds S g' m) :
    Minds S g (do
      if ← needsClassCheck ctx site then insertReceiverCheck site
      m) := by
  refine minds_needsClassCheck.andThen fun _ g₁ hext₁ _ => .either (fun _ => ?_) fun _ => hm g₁ hext₁
  exact (minds_insertReceiverCheck hcall).andThen fun _ g₂ hext₂ _ => hm g₂ (hext₁.trans hext₂)

theorem minds_indexIsKnownWithin {array index : InstId} : Minds S g (indexIsKnownWithin array index) := by
  refine .reading (.lifted fun _ _ => .lifted fun _ _ => ?_)
  split <;> exact .value trivial

theorem vets_prepareAccess {cls : ClassId} (hcall : S.insts site.inst) :
    Vets S g (prepareAccess site cls) fun r g' => Usable S g' r.1 := by
  refine (vets_argumentValue hcall).andThen fun array _ _ harray =>
    (vets_argumentValue hcall).andThen fun index _ hext hindex => ?_
  have harray := harray.mono hext
  refine .lifted fun _ _ => (minds_insertClassCheck harray).andThen fun _ _ hext₁ _ => ?_
  refine (minds_insertCheckSmi (hindex.mono hext₁)).andThen fun _ _ hext₂ _ =>
    minds_indexIsKnownWithin.andThen fun _ g₃ hext₃ _ => ?_
  have hext := (hext₁.trans hext₂).trans hext₃
  have hrest (g : FlowGraph) (harray : Usable S g array) : Vets S g (do
      if cls = .growableArray then
        let store ← insertValue site.inst (backingStore array)
        return (store, .array)
      return (array, cls)) fun r g' => Usable S g' r.1 := by
    refine .either (fun _ => ?_) fun _ => .value harray
    exact (vets_insertValue (addable_one rfl harray)).andThen fun _ _ _ hstore => .value hstore
  refine .either (fun _ => ?_) fun _ => hrest g₃ (harray.mono hext)
  refine (minds_insertCheck (addable_two rfl (harray.mono hext) (hindex.mono hext))).andThen fun _ g₄ hext₄ _ => ?_
  exact hrest g₄ (harray.mono (hext.trans hext₄))

/-! ## Replacing calls -/

theorem minds_removePushes {pushes : List InstId} (hpushes : ∀ p ∈ pushes, Inner S g p) :
    Minds S g (removePushes pushes) := by
  refine .each fun p hp g₁ hext₁ => .reading (.knowing fun hg₁ => .lifted fun v hv => ?_)
  have hpush := (hpushes p hp).mono hext₁
  exact (minds_replaceUses fun _ _ _ => hg₁.usable_of_arg hpush.mem hv).andThen fun _ _ hext₂ _ =>
    minds_remove (hpush.loose.mono hext₂)

section

variable (hS : S.Impartial)

include hS

theorem minds_replaceCall (hcall : Replaceable S g call) (he : Addable S g e) : Minds S g (replaceCall call e) := by
  refine .knowing fun hg => .reading (.lifted fun d hd => (vets_addInst he).andThen fun new _ hext₁ hnew => ?_)
  refine (minds_replaceInst hS hnew (hcall.valued.mono hext₁)).andThen fun _ _ hext₂ _ => ?_
  have hpushes := (hg.watched_of_inst hcall.inst hd).arguments
  refine (minds_removePushes fun p hp => (hpushes p hp).mono (hext₁.trans hext₂)).andThen fun _ _ _ _ => ?_
  exact .value trivial

theorem minds_replaceCallPlainly (hcall : Replaceable S g call) (he : Addable S g e) :
    Minds S g (replaceCallPlainly call e) :=
  (minds_replaceCall hS hcall he).andThen fun _ _ _ _ => minds_setEnv

theorem minds_replacing (hcall : Replaceable S g call) (he : Addable S g e) : Minds S g (do
    discard <| replaceCall call e
    return true) :=
  (Vets.discarding (minds_replaceCall hS hcall he)).andThen fun _ _ _ _ => .value trivial

theorem minds_replacingPlainly (hcall : Replaceable S g call) (he : Addable S g e) : Minds S g (do
    replaceCallPlainly call e
    return true) :=
  (minds_replaceCallPlainly hS hcall he).andThen fun _ _ _ _ => .value trivial

end

/-! ## Comparisons -/

/-- An instruction of the scope may read both operands. -/
def Comparable (S : Scope) (g : FlowGraph) (c : Comparison) : Prop := Usable S g c.left ∧ Usable S g c.right

section

variable {c : Comparison} {cls : ClassId}

theorem Comparison.opcode_traits (c : Comparison) :
    c.opcode.isDefinition = true ∧ c.opcode ≠ .pushArgument ∧ c.opcode.isTerminator = false := by
  unfold Comparison.opcode
  cases c.kind <;> exact ⟨rfl, nofun, rfl⟩

theorem args_of_comparison? (hc : e.comparison? = some c) : e.args = [c.left, c.right] := by
  cases e <;> cases hc <;> rfl

theorem Vetted.comparable (hg : Vetted S g) (hi : S.insts i) (he : g.inst i = .ok e) (hc : e.comparison? = some c) :
    Comparable S g c := by
  have h := (hg.watched_of_inst hi he).args
  rw [args_of_comparison? hc, List.forall_mem_cons, List.forall_mem_singleton] at h
  exact h

theorem Watched.mapComparison {f : Comparison → Comparison} (h : Watched S g e)
    (hf : ∀ c, Comparable S g c → Comparable S g (f c)) : Watched S g (e.mapComparison f) := by
  cases e with
  | compare c =>
    obtain ⟨hl, hr⟩ := hf c ⟨h.args c.left (by simp [Inst.args]), h.args c.right (by simp [Inst.args])⟩
    refine ⟨List.forall_mem_cons.mpr ⟨hl, List.forall_mem_singleton.mpr hr⟩, h.arguments, fun _ _ => ?_⟩
    exact (Comparison.opcode_traits (f c)).2.2
  | branch c =>
    obtain ⟨hl, hr⟩ := hf c ⟨h.args c.left (by simp [Inst.args]), h.args c.right (by simp [Inst.args])⟩
    refine ⟨List.forall_mem_cons.mpr ⟨hl, List.forall_mem_singleton.mpr hr⟩, h.arguments, fun _ hno => ?_⟩
    cases hno
  | _ => exact h

/-- A comparison remains one, whatever becomes of its operands. -/
theorem Kept.mapComparison {f : Comparison → Comparison} {n : Node}
    (hf : ∀ c, Comparable S g c → Comparable S g (f c)) : Kept S g i n { n with inst := n.inst.mapComparison f } := by
  obtain ⟨hdef, hpush, hterm, hsuccs⟩ : (n.inst.mapComparison f).isDefinition = n.inst.isDefinition ∧
      ((n.inst.mapComparison f).opcode = .pushArgument ↔ n.inst.opcode = .pushArgument) ∧
      (n.inst.mapComparison f).isTerminator = n.inst.isTerminator ∧
      (n.inst.mapComparison f).successors = n.inst.successors := by
    cases n.inst with
    | compare c =>
      simp [Inst.mapComparison, Inst.isDefinition, Inst.isTerminator, Inst.opcode, Inst.successors,
        Comparison.opcode_traits]
    | _ => exact ⟨rfl, .rfl, rfl, rfl⟩
  exact ⟨hdef, hpush, hterm, hsuccs, rfl, fun _ h => h.mapComparison hf, fun _ hu => .inl hu⟩

theorem minds_setComparison {f : Comparison → Comparison} (hf : ∀ c, Comparable S g c → Comparable S g (f c)) :
    Minds S g (setComparison i f) := minds_modifyNode fun _ _ _ => .mapComparison hf

theorem minds_setOperands : Minds S g (setOperands i cls) :=
  .andThen (minds_setComparison fun _ h => h) fun _ _ _ _ => .value trivial

theorem minds_requireTwoSmis (hc : Comparable S g c) : Minds S g (requireTwoSmis i c) :=
  (minds_insertCheckSmi hc.1).andThen fun _ _ hext _ => (minds_insertCheckSmi (hc.2.mono hext)).andThen fun _ _ _ _ =>
    minds_setOperands

theorem minds_specializeRelational (hc : Comparable S g c) : Minds S g (specializeRelational ctx i c) := by
  refine .either (fun _ => .value trivial) fun _ => ?_
  split
  · exact .value trivial
  · refine .either (fun _ => minds_requireTwoSmis hc) fun _ => .either (fun _ => minds_setOperands) fun _ => ?_
    exact .either (fun _ => minds_setOperands) fun _ => .value trivial

theorem minds_specializeSmiOrNull {ic : InlineCache} (hc : Comparable S g c) : Minds S g (specializeSmiOrNull i c ic) :=
  .lifted fun _ _ => (minds_insertClassCheck hc.1).andThen fun _ _ hext _ => .lifted fun _ _ =>
    (minds_insertClassCheck (hc.2.mono hext)).andThen fun _ _ _ _ => minds_setOperands

theorem minds_specializeNullEquality (hc : Comparable S g c) : Minds S g (specializeNullEquality i c) :=
  .andThen (minds_setComparison fun _ _ => hc) fun _ _ _ _ => .value trivial

theorem minds_specializeEquality (hc : Comparable S g c) : Minds S g (specializeEquality ctx i c) := by
  refine .either (fun _ => .value trivial) fun _ => .reading (.lifted fun _ _ => ?_)
  refine .either (fun _ => minds_specializeNullEquality hc) fun _ => .lifted fun _ _ => ?_
  refine .either (fun _ => minds_specializeNullEquality hc) fun _ => ?_
  split
  · exact .value trivial
  · refine .either (fun _ => minds_requireTwoSmis hc) fun _ => .either (fun _ => minds_setOperands) fun _ => ?_
    refine .either (fun _ => minds_setOperands) fun _ => .either (fun _ => minds_specializeSmiOrNull hc) fun _ => ?_
    exact .value trivial

theorem minds_dropNumberCheck : Minds S g (dropNumberCheck i) := by
  have hdrop (g : FlowGraph) : Minds S g (do
      setComparison i fun c => { c with numberCheck := false }
      return true) := .andThen (minds_setComparison fun _ h => h) fun _ _ _ _ => .value trivial
  refine .reading (.lifted fun _ _ => ?_)
  split
  · refine .either (fun _ => .lifted fun _ _ => .either (fun _ => .lifted fun _ _ => ?_) fun _ => hdrop g) fun _ => ?_
    · exact .either (fun _ => .value trivial) fun _ => hdrop g
    · exact .value trivial
  · exact .value trivial

theorem minds_specializeComparison (hi : S.insts i) : Minds S g (specializeComparison ctx i) := by
  refine .knowing fun hg => .reading (.lifted fun e he => ?_)
  split
  · exact .value trivial
  next c hc =>
    have hcomparable := hg.comparable hi he hc
    split
    · exact minds_dropNumberCheck
    · exact minds_specializeEquality hcomparable
    · exact minds_specializeRelational hcomparable

end

/-! ## Calls that stay -/

theorem replaceable_of_inst (hi : S.insts i) (he : g.inst i = .ok e) (hdef : e.isDefinition = true)
    (hpush : e.opcode ≠ .pushArgument) : Replaceable S g i := by
  obtain ⟨n, hn, rfl⟩ := inst_eq_ok.mp he
  exact ⟨hi, n, hn, hdef, hpush⟩

theorem replaceable_of_site (hcall : S.insts call) (h : Site.at? g call = .ok (some site)) :
    Replaceable S g site.inst := by
  unfold Site.at? at h
  obtain ⟨e, he, h⟩ := bind_eq_ok.mp h
  split at h
  · have h := pure_eq_ok.mp h
    split at h
    · cases h
    · cases h
      exact replaceable_of_inst hcall he rfl nofun
  · cases pure_eq_ok.mp h

theorem minds_setFeedback {ic : InlineCache} : Minds S g (setFeedback call ic) := by
  refine minds_modifyNode fun _ n _ => ?_
  cases hinst : n.inst with
  | instanceCall c =>
    refine .of_opcode (by rw [hinst]; rfl) (by rw [hinst]; rfl) rfl (fun _ h => ?_) fun _ hu => .inl hu
    rw [hinst] at h
    exact ⟨h.args, h.arguments, fun _ _ => rfl⟩
  | _ => exact .of_same (by rw [hinst]) rfl fun _ hu => .inl hu

theorem minds_foresee (hcall : S.insts call) : Minds S g (foresee ctx call) := by
  refine .reading (.lifted fun _ _ => ?_)
  split
  · refine .either (fun _ => .value trivial) fun _ => .reading ((vets_argumentValue hcall).andThen fun _ _ _ _ => ?_)
    refine .lifted fun _ _ => .either (fun _ => .value trivial) fun _ => ?_
    split
    · exact minds_setFeedback.andThen fun _ _ _ _ => .value trivial
    · exact .value trivial
  · exact .value trivial

theorem vets_charCodeLoad {cls : ClassId} (hcall : S.insts site.inst) :
    Vets S g (charCodeLoad site cls) fun e g' => Addable S g' e := by
  refine (vets_argumentValue hcall).andThen fun string _ _ hstring =>
    (vets_argumentValue hcall).andThen fun index _ hext hindex => ?_
  refine (minds_insertReceiverCheck hcall).andThen fun _ _ hext₁ _ => ?_
  have hstring := (hstring.mono hext).mono hext₁
  refine (minds_insertCheckSmi (hindex.mono hext₁)).andThen fun _ _ hext₂ _ => ?_
  have hstring := hstring.mono hext₂
  have hindex := hindex.mono (hext₁.trans hext₂)
  exact (minds_insertCheck (addable_two rfl hstring hindex)).andThen fun _ _ hext₃ _ =>
    .value (addable_two rfl (hstring.mono hext₃) (hindex.mono hext₃))

theorem minds_foldTypeTest {classes : InlineCache} {answer : Bool} (hcall : Replaceable S g site.inst)
    (hvalue : Usable S g value) : Minds S g (foldTypeTest site value classes answer) := by
  refine (minds_insertClassCheck hvalue).andThen fun _ _ hext₁ _ => .knowing fun hg => .reading (.lifted fun e he => ?_)
  have hplain := (hcall.mono hext₁).valued.plain
  refine vets_getConstant.andThen fun _ _ hext₂ hresult => ?_
  refine (minds_replaceByExisting (fun _ _ _ => hresult) (loose_of_plain (hplain.mono hext₂))).andThen fun _ _ hext₃
    _ => ?_
  have hpushes := (hg.watched_of_inst hcall.inst he).arguments
  refine (minds_removePushes fun p hp => (hpushes p hp).mono (hext₂.trans hext₃)).andThen fun _ _ _ _ => ?_
  exact .value trivial

section

variable (hS : S.Impartial)

include hS

/-! ## Operators -/

theorem minds_replaceByDoubleOp {op : Token} (hcall : Replaceable S g call) (hl : Usable S g l) (hr : Usable S g r) :
    Minds S g (replaceByDoubleOp call op l r) :=
  (minds_insertCheck (addable_two rfl hl hr)).andThen fun _ _ hext _ =>
    minds_replacing hS (hcall.mono hext) (addable_two rfl (hl.mono hext) (hr.mono hext))

theorem minds_replaceByMintOp {op : Token} (hcall : Replaceable S g call) (hl : Usable S g l) (hr : Usable S g r) :
    Minds S g (replaceByMintOp call op l r) := minds_replacing hS hcall (addable_two (by cases op <;> rfl) hl hr)

theorem minds_replaceByMask (hcall : Replaceable S g call) (hl : Usable S g l) :
    Minds S g (replaceByMask call l r) := by
  refine .reading (.lifted fun _ _ => ?_)
  split
  · exact .value trivial
  · refine (minds_insertCheckSmi hl).andThen fun _ _ hext₁ _ => vets_getConstant.andThen fun _ _ hext₂ hm => ?_
    have hext := hext₁.trans hext₂
    exact minds_replacing hS (hcall.mono hext) (addable_two rfl (hl.mono hext) hm)

theorem minds_replaceBySmiOp {op : Token} (hcall : Replaceable S g call) (hl : Usable S g l) (hr : Usable S g r) :
    Minds S g (replaceBySmiOp call op l r) := by
  refine (minds_requireSmi hl).andThen fun _ _ hext₁ _ => (minds_requireSmi (hr.mono hext₁)).andThen fun _ _ hext₂ _ =>
    ?_
  have hext := hext₁.trans hext₂
  refine .reading (.lifted fun _ _ => minds_replacing hS (hcall.mono hext) ?_)
  split
  · exact addable_two rfl (hr.mono hext) (hl.mono hext)
  · exact addable_two rfl (hl.mono hext) (hr.mono hext)

theorem minds_replaceByBinaryOp (hcall : Replaceable S g site.inst) : Minds S g (replaceByBinaryOp ctx site) := by
  refine .either (fun _ => .value trivial) fun _ => .lifted fun _ _ => ?_
  split
  · exact .value trivial
  · refine (vets_argumentValue hcall.inst).andThen fun l _ hext₁ hl => ?_
    refine (vets_argumentValue hcall.inst).andThen fun r _ hext₂ hr => ?_
    have hcall := hcall.mono (hext₁.trans hext₂)
    have hl := hl.mono hext₂
    refine .either (fun _ => minds_replaceByDoubleOp hS hcall hl hr) fun _ => .either (fun _ => ?_) fun _ => ?_
    · exact .attemptIf (minds_replaceByMintOp hS hcall hl hr)
    · exact .either (fun _ => minds_replaceByMask hS hcall hl) fun _ => minds_replaceBySmiOp hS hcall hl hr

theorem minds_replaceByUnaryOp (hcall : Replaceable S g site.inst) : Minds S g (replaceByUnaryOp ctx site) := by
  refine (vets_argumentValue hcall.inst).andThen fun v g₁ hext₁ hv => ?_
  have hcall₁ := hcall.mono hext₁
  refine .lifted fun _ _ => .either (fun _ => ?_) fun _ => .either (fun _ => ?_) fun _ => .either (fun _ => ?_) fun _ =>
    ?_
  · exact (minds_insertCheckSmi hv).andThen fun _ _ hext _ =>
      minds_replacing hS (hcall₁.mono hext) (addable_one rfl (hv.mono hext))
  · exact minds_replacing hS hcall₁ (addable_one rfl hv)
  · refine .lifted fun _ _ => .either (fun _ => ?_) fun _ => .value trivial
    refine (minds_insertReceiverCheck hcall.inst).andThen fun _ _ hext₂ _ =>
      vets_getConstant.andThen fun _ _ hext₃ hm => ?_
    have hext := hext₂.trans hext₃
    exact minds_replacing hS (hcall₁.mono hext) (addable_two rfl (hv.mono hext) hm)
  · exact .value trivial

/-! ## Elements -/

theorem minds_replaceByLoadIndexed (hcall : Replaceable S g site.inst) : Minds S g (replaceByLoadIndexed site) := by
  refine .lifted fun _ _ => ?_
  split
  · exact .value trivial
  · refine .either (fun _ => ?_) fun _ => .value trivial
    refine (vets_argumentValue hcall.inst).andThen fun _ _ hext₁ hindex => ?_
    refine (vets_prepareAccess hcall.inst).andThen fun _ _ hext₂ harray => ?_
    exact minds_replacing hS (hcall.mono (hext₁.trans hext₂)) (addable_two rfl harray (hindex.mono hext₂))

theorem minds_replaceByStoreIndexed (hcall : Replaceable S g site.inst) : Minds S g (replaceByStoreIndexed site) := by
  have hstore (cls : ClassId) (check : Option InlineCache) : Minds S g (do
      let index ← argumentValue site.inst 1
      let value ← argumentValue site.inst 2
      let access ← prepareAccess site cls
      check.forM (insertClassCheck site.inst value)
      discard <| replaceCall site.inst (.storeIndexed access.2 check.isNone access.1 index value)
      return true) := by
    refine (vets_argumentValue hcall.inst).andThen fun index _ hext₁ hindex => ?_
    refine (vets_argumentValue hcall.inst).andThen fun value _ hext₂ hvalue => ?_
    refine (vets_prepareAccess hcall.inst).andThen fun r g₃ hext₃ harray => ?_
    have hvalue := hvalue.mono hext₃
    have hcheck : Minds S g₃ (check.forM (insertClassCheck site.inst value)) := by
      cases check with
      | none => exact .value trivial
      | some ic => exact minds_insertClassCheck hvalue
    refine hcheck.andThen fun _ _ hext₄ _ => ?_
    have hext := (hext₂.trans hext₃).trans hext₄
    exact minds_replacing hS (hcall.mono (hext₁.trans hext))
      (addable_three rfl (harray.mono hext₄) (hindex.mono hext) (hvalue.mono hext₄))
  refine .lifted fun _ _ => ?_
  split
  · exact .value trivial
  · refine .lifted fun _ _ => ?_
    split
    · exact .value trivial
    · exact hstore _ none
    · exact hstore _ (some _)

/-! ## Getters and setters -/

theorem minds_inlineFieldGetter {field : Field} (hcall : Replaceable S g site.inst) :
    Minds S g (inlineFieldGetter ctx site field) :=
  minds_guarded hcall.inst fun _ hext₁ => (vets_argumentValue hcall.inst).andThen fun _ _ hext₂ hreceiver =>
    minds_replacingPlainly hS (hcall.mono (hext₁.trans hext₂)) (addable_one rfl hreceiver)

theorem minds_inlineLength {recognized : Recognized} {offset : Nat} {immutable : Bool}
    (hcall : Replaceable S g site.inst) : Minds S g (inlineLength site recognized offset immutable) :=
  (minds_insertReceiverCheck hcall.inst).andThen fun _ _ hext₁ _ => (vets_argumentValue hcall.inst).andThen
    fun _ _ hext₂ hreceiver => minds_replacingPlainly hS (hcall.mono (hext₁.trans hext₂)) (addable_one rfl hreceiver)

theorem minds_inlineCapacity (hcall : Replaceable S g site.inst) : Minds S g (inlineCapacity site) := by
  refine (minds_insertReceiverCheck hcall.inst).andThen fun _ _ hext₁ _ => ?_
  refine (vets_argumentValue hcall.inst).andThen fun _ _ hext₂ hreceiver => ?_
  refine (vets_insertValue (addable_one rfl hreceiver)).andThen fun _ _ hext₃ hstore => ?_
  exact minds_replacingPlainly hS (hcall.mono ((hext₁.trans hext₂).trans hext₃)) (addable_one rfl hstore)

theorem minds_inlineIsEmpty (hcall : Replaceable S g site.inst) : Minds S g (inlineIsEmpty site) := by
  refine (minds_insertReceiverCheck hcall.inst).andThen fun _ _ hext₁ _ => ?_
  refine (vets_argumentValue hcall.inst).andThen fun _ _ hext₂ hreceiver => ?_
  refine (vets_insertValue (addable_one rfl hreceiver)).andThen fun _ _ hext₃ hlength => ?_
  refine vets_getConstant.andThen fun _ _ hext₄ hzero => ?_
  exact minds_replacingPlainly hS (hcall.mono (((hext₁.trans hext₂).trans hext₃).trans hext₄))
    (addable_two rfl (hlength.mono hext₄) hzero)

theorem minds_inlineGetter (hcall : Replaceable S g site.inst) : Minds S g (inlineGetter ctx site) := by
  refine .lifted fun _ _ => .lifted fun _ _ => ?_
  split
  · exact .attemptIf (minds_inlineFieldGetter hS hcall)
  · split
    · exact minds_inlineCapacity hS hcall
    · exact .attemptIf (minds_inlineIsEmpty hS hcall)
    · exact .attemptIf (minds_inlineLength hS hcall)
    · exact .value trivial

theorem minds_inlineFieldSetter {field : Field} (hcall : Replaceable S g site.inst) :
    Minds S g (inlineFieldSetter ctx site field) := by
  refine minds_guarded hcall.inst fun _ hext₁ => (vets_argumentValue hcall.inst).andThen fun receiver _ hext₂
    hreceiver => ?_
  refine (vets_argumentValue hcall.inst).andThen fun value g₃ hext₃ hvalue => .lifted fun smi _ => ?_
  have hcall₃ := hcall.mono ((hext₁.trans hext₂).trans hext₃)
  have hreceiver := hreceiver.mono hext₃
  refine .either (fun _ => (minds_insertCheckSmi hvalue).andThen fun _ _ hext _ => ?_) fun _ => ?_
  · exact minds_replacingPlainly hS (hcall₃.mono hext) (addable_two rfl (hreceiver.mono hext) (hvalue.mono hext))
  · exact minds_replacingPlainly hS hcall₃ (addable_two rfl hreceiver hvalue)

theorem minds_inlineSetter {unary : InlineCache} (hcall : Replaceable S g site.inst) :
    Minds S g (inlineSetter ctx site unary) := by
  refine .either (fun _ => .value trivial) fun _ => ?_
  refine .lifted fun _ _ => ?_
  refine .lifted fun _ _ => ?_
  split
  · exact minds_inlineFieldSetter hS hcall
  · exact .value trivial

/-! ## Methods -/

theorem minds_inlineCharCodeAt {cls : ClassId} (hcall : Replaceable S g site.inst) :
    Minds S g (inlineCharCodeAt site cls) :=
  (vets_charCodeLoad hcall.inst).andThen fun _ _ hext hload => minds_replacing hS (hcall.mono hext) hload

theorem minds_inlineCharAt {cls : ClassId} (hcall : Replaceable S g site.inst) : Minds S g (inlineCharAt site cls) :=
  (vets_charCodeLoad hcall.inst).andThen fun _ _ hext₁ hload => (vets_insertValue hload).andThen fun _ _ hext₂ hcode =>
    minds_replacing hS (hcall.mono (hext₁.trans hext₂)) (addable_one rfl hcode)

theorem minds_inlineUnary {opcode : Opcode} {receiver : InstId} (hcall : Replaceable S g site.inst)
    (hreceiver : Usable S g receiver) (hop : opcode.isTerminator = false) :
    Minds S g (inlineUnary site opcode receiver) :=
  (minds_insertReceiverCheck hcall.inst).andThen fun _ _ hext _ =>
    minds_replacing hS (hcall.mono hext) (addable_one (by rw [← hop]; rfl) (hreceiver.mono hext))

theorem minds_inlineMathFunction {function : Recognized} (hcall : Replaceable S g site.inst) :
    Minds S g (inlineMathFunction site function) :=
  (minds_insertReceiverCheck hcall.inst).andThen fun _ _ hext₁ _ => (vets_argumentValues hcall.inst).andThen
    fun _ _ hext₂ hargs => minds_replacing hS (hcall.mono (hext₁.trans hext₂)) (addable_of_parts rfl hargs)

theorem minds_inlineDoubleMethod {method : Recognized} {receiver : InstId} (hcall : Replaceable S g site.inst)
    (hreceiver : Usable S g receiver) : Minds S g (inlineDoubleMethod site method receiver) := by
  unfold inlineDoubleMethod
  split
  case h_8 => exact .value trivial
  case h_2 | h_3 => exact minds_inlineMathFunction hS hcall
  case h_1 => exact minds_inlineUnary hS hcall hreceiver (by split <;> rfl)
  all_goals exact minds_inlineUnary hS hcall hreceiver rfl

theorem minds_inlineMethod (hcall : Replaceable S g site.inst) : Minds S g (inlineMethod ctx site) := by
  refine .either (fun _ => .value trivial) fun _ => ?_
  refine .lifted fun _ _ => ?_
  refine .lifted fun _ _ => ?_
  refine .lifted fun _ _ => ?_
  refine (vets_argumentValue hcall.inst).andThen fun _ _ hext hreceiver => ?_
  have hcall := hcall.mono hext
  refine .either (fun _ => minds_inlineCharCodeAt hS hcall) fun _ =>
    .either (fun _ => minds_inlineCharAt hS hcall) fun _ => ?_
  refine .either (fun _ => minds_inlineUnary hS hcall hreceiver rfl) fun _ => .either (fun _ => .value trivial) fun _ =>
    ?_
  exact minds_inlineDoubleMethod hS hcall hreceiver

theorem minds_inlineTypeTest (hcall : Replaceable S g site.inst) : Minds S g (inlineTypeTest ctx site) := by
  refine .reading (.lifted fun _ _ => .either (fun _ => .value trivial) fun _ => ?_)
  refine (vets_argumentValue hcall.inst).andThen fun value g₁ hext₁ hvalue => .reading ?_
  refine (vets_argumentValue hcall.inst).andThen fun _ g₂ hext₂ _ => .lifted fun _ _ => ?_
  have hcall := hcall.mono (hext₁.trans hext₂)
  have hvalue := hvalue.mono hext₂
  split
  · refine .lifted fun unary _ => .either (fun _ => .lifted fun outcome _ => ?_) fun _ => ?_
    · cases outcome with
      | some answer => exact minds_foldTypeTest hcall hvalue
      | none => exact minds_replacing hS hcall (addable_one rfl hvalue)
    · exact minds_replacing hS hcall (addable_one rfl hvalue)
  · exact .value trivial

theorem minds_specializeStaticCall (hcall : S.insts call) : Minds S g (specializeStaticCall ctx call) := by
  refine .reading (.lifted fun e he => ?_)
  split
  · have hcall : Replaceable S g call := replaceable_of_inst hcall he rfl nofun
    refine .lifted fun _ _ => (vets_argumentValues hcall.inst).andThen fun args _ hext hargs => ?_
    have hcall := hcall.mono hext
    split
    case h_4 => exact .value trivial
    case h_1 => exact minds_replacing hS hcall (addable_of_parts rfl hargs)
    all_goals exact minds_replacing hS hcall (addable_of_parts rfl hargs)
  · exact .value trivial

/-! ## Calls -/

theorem minds_replaceByDispatch {targets : InlineCache} {withChecks : Bool} (hcall : Replaceable S g call) :
    Minds S g (replaceByDispatch call targets withChecks) := by
  refine .knowing fun hg => .reading (.lifted fun e he => ?_)
  split
  next c =>
    have haddable : Addable S g (.polymorphicCall c targets withChecks) :=
      ⟨List.forall_mem_nil _, (hg.watched_of_inst hcall.inst he).arguments, rfl⟩
    refine (vets_addInst haddable).andThen fun _ _ hext hnew => ?_
    exact (minds_replaceInst hS hnew (hcall.valued.mono hext)).andThen fun _ _ _ _ => .value trivial
  · exact .value trivial

theorem minds_dispatch {unary : InlineCache} (hcall : Replaceable S g site.inst) :
    Minds S g (dispatch ctx site unary) := by
  have hrest (g' : FlowGraph) (unguarded : Bool) (hcall : Replaceable S g' site.inst) : Minds S g' (do
      if unguarded then replaceByDispatch site.inst unary false
      else if unary.size ≤ ctx.config.maxPolymorphicChecks then
        if unary.hasOneTarget then insertReceiverCheck site
        replaceByDispatch site.inst unary (!unary.hasOneTarget)
      else return false) := by
    refine .either (fun _ => minds_replaceByDispatch hS hcall) fun _ => .either (fun _ => ?_) fun _ => .value trivial
    refine .either (fun _ => ?_) fun _ => minds_replaceByDispatch hS hcall
    exact (minds_insertReceiverCheck hcall.inst).andThen fun _ _ hext _ => minds_replaceByDispatch hS (hcall.mono hext)
  refine .either (fun _ => ?_) fun _ => hrest g false hcall
  exact minds_needsClassCheck.andThen fun _ g' hext _ => hrest g' _ (hcall.mono hext)

theorem minds_specializeSite (hcall : Replaceable S g site.inst) : Minds S g (specializeSite ctx site) := by
  refine .either (fun _ => minds_inlineTypeTest hS hcall) fun _ => .lifted fun unary _ => ?_
  refine (Vets.of_reads Reports.reads_isMegamorphic).andThen fun _ g₁ hext _ => .either (fun _ => ?_) fun _ => ?_
  · exact minds_setFeedback.andThen fun _ _ _ _ => .value trivial
  · refine .firstChange ?_
    simp only [List.forall_mem_cons, List.not_mem_nil, false_imp_iff, implies_true, and_true]
    have hcall := hcall.mono hext
    refine ⟨fun _ h => .attemptIf (minds_replaceByStoreIndexed hS (hcall.mono h)),
      fun _ h => .attemptIf (minds_replaceByLoadIndexed hS (hcall.mono h)),
      fun _ h => .attemptIf (minds_replaceByBinaryOp hS (hcall.mono h)),
      fun _ h => .attemptIf (minds_replaceByUnaryOp hS (hcall.mono h)),
      fun _ h => .attemptIf (minds_inlineGetter hS (hcall.mono h)),
      fun _ h => .attemptIf (minds_inlineSetter hS (hcall.mono h)), fun _ h => minds_inlineMethod hS (hcall.mono h),
      fun _ h => minds_dispatch hS (hcall.mono h)⟩

theorem minds_specializeCall (hcall : S.insts call) : Minds S g (specializeCall ctx call) := by
  refine .reading (.lifted fun o ho => ?_)
  cases o with
  | none => exact .value trivial
  | some site => exact minds_specializeSite hS (replaceable_of_site hcall ho)

theorem minds_specialize : Minds S g (specialize ctx) := by
  refine .visitInsts fun i g hi => .reading (.lifted fun _ _ => ?_)
  split
  case h_7 => exact .value trivial
  · exact minds_specializeCall hS hi
  · exact minds_specializeStaticCall hS hi
  all_goals exact minds_specializeComparison hi

theorem minds_narrowDispatch (hcall : S.insts call) : Minds S g (narrowDispatch call) := by
  refine .knowing fun hg => .reading (.lifted fun e he => ?_)
  split
  next c targets =>
    have hcall : Replaceable S g call := replaceable_of_inst hcall he rfl nofun
    have haddable (narrowed : InlineCache) : Addable S g (.polymorphicCall c narrowed false) :=
      ⟨List.forall_mem_nil _, (hg.watched_of_inst hcall.inst he).arguments, rfl⟩
    refine .reading ((vets_argumentValue hcall.inst).andThen fun _ _ hext₁ _ => .lifted fun cls _ => ?_)
    refine .either (fun _ => .value trivial) fun _ => .lifted fun _ _ => ?_
    split
    · refine (vets_addInst ((haddable _).mono hext₁)).andThen fun _ _ hext₂ hnew => ?_
      exact (minds_replaceInst hS hnew (hcall.valued.mono (hext₁.trans hext₂))).andThen fun _ _ _ _ => .value trivial
    · exact .value trivial
  · exact .value trivial

theorem minds_applyClasses : Minds S g (applyClasses ctx) := by
  refine .visitInsts fun i g hi => .reading (.lifted fun _ _ => ?_)
  split
  case h_5 => exact .value trivial
  · refine (minds_foresee hi).andThen fun _ _ _ _ => .either (fun _ => ?_) fun _ => .value trivial
    exact (Vets.discarding (minds_specializeCall hS hi)).andThen fun _ _ _ _ => .value trivial
  · exact minds_narrowDispatch hS hi
  all_goals exact minds_dropNumberCheck

end

end Midend.Naming
