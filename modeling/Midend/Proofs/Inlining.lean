import Midend.Proofs.Calls

/-! # Guards of inlined bodies

A call of a getter, a setter or a recognized method gives way to the body of the function that feedback names, behind
a check of the receiver. The check admits the classes that were seen. That is right if the call goes to that function
for each of them.
-/

namespace Midend

namespace Calls

variable {ctx : Context} {h : Hierarchy} {g g' g'' : FlowGraph} {site : Site} {ic receivers : InlineCache} {c : ClassId}
  {selector : String} {f : FunctionId}

/-! ## Feedback -/

/-- Every recorded target is where a call goes for the receiver class it was recorded with. -/
def Faithful (h : Hierarchy) (selector : String) (ic : InlineCache) : Prop :=
  ∀ o ∈ ic.checks, ∃ c, o.receiver = .ok c ∧ h.resolve c selector = some o.target

def Seen (ic : InlineCache) (c : ClassId) : Prop := ∃ o ∈ ic.checks, o.count ≠ 0 ∧ o.receiver = .ok c

/-- Of the observations that were looked at, `cs` is the view by receiver class. -/
structure View (done cs : List Observation) : Prop where
  sound : ∀ o ∈ cs, ∃ c, o.classes = [c] ∧ ∃ p ∈ done, p.count ≠ 0 ∧ p.receiver = .ok c ∧ p.target = o.target
  complete : ∀ p ∈ done, p.count ≠ 0 → ∀ c, p.receiver = .ok c → ∃ o ∈ cs, o.classes = [c]

theorem mem_withReceiver {cs : List Observation} {n : Nat} {o : Observation} :
    o ∈ InlineCache.withReceiver cs c f n ↔ o = ⟨[c], f, n⟩ ∨ o ∈ cs := by
  unfold InlineCache.withReceiver
  split
  · simp
  · simp [or_comm]

theorem View.merge {done cs cs' : List Observation} {p : Observation} (hview : View done cs) (hp : p.count ≠ 0)
    (hc : p.receiver = .ok c) (hmerge : InlineCache.merge cs c p.target p.count = .ok cs') :
    View (done ++ [p]) cs' := by
  have hold : ∀ o ∈ cs, ∃ c, o.classes = [c] ∧
      ∃ q ∈ done ++ [p], q.count ≠ 0 ∧ q.receiver = .ok c ∧ q.target = o.target := by
    intro o ho
    obtain ⟨c, hc, q, hq, hrest⟩ := hview.sound o ho
    exact ⟨c, hc, q, by simp [hq], hrest⟩
  unfold InlineCache.merge at hmerge
  split at hmerge
  case h_1 =>
    rw [pure_eq_ok] at hmerge
    subst hmerge
    constructor
    · intro o ho
      obtain rfl | ho := mem_withReceiver.mp ho
      · exact ⟨c, rfl, p, by simp, hp, hc, rfl⟩
      · exact hold o ho
    · intro q hq hcount c' hc'
      obtain hq | rfl := by simpa using hq
      · obtain ⟨o, ho, hclasses⟩ := hview.complete q hq hcount c' hc'
        exact ⟨o, mem_withReceiver.mpr (.inr ho), hclasses⟩
      · obtain rfl : c = c' := by simpa [hc] using hc'
        exact ⟨_, mem_withReceiver.mpr (.inl rfl), rfl⟩
  case h_2 k hk =>
    obtain ⟨old, hold', hset⟩ := bind_eq_ok.mp hmerge
    split at hset
    case isFalse => cases hset
    rw [pure_eq_ok] at hset
    subst hset
    have hget : cs[k]? = some old := orFault_eq_ok.mp hold'
    have hmem : old ∈ cs := List.mem_of_getElem? hget
    have hkeeps : ∀ o ∈ cs, ∃ o' ∈ cs.set k { old with count := old.count + p.count }, o'.classes = o.classes := by
      intro o ho
      obtain ⟨j, hj⟩ := List.mem_iff_getElem?.mp ho
      by_cases hjk : j = k
      · obtain rfl : old = o := by simpa [hjk, hget] using hj
        exact ⟨_, List.mem_set (List.getElem?_eq_some_iff.mp hget).1 _, rfl⟩
      · exact ⟨o, List.mem_of_getElem? (by rw [List.getElem?_set_ne (Ne.symm hjk), hj]), rfl⟩
    constructor
    · intro o ho
      obtain ho | rfl := List.mem_or_eq_of_mem_set ho
      · exact hold o ho
      · exact hold old hmem
    · intro q hq hcount c' hc'
      obtain hq | rfl := by simpa using hq
      · obtain ⟨o, ho, hclasses⟩ := hview.complete q hq hcount c' hc'
        obtain ⟨o', ho', heq⟩ := hkeeps o ho
        exact ⟨o', ho', heq.trans hclasses⟩
      · obtain rfl : c = c' := by simpa [hc] using hc'
        have hhead : old.classes.head? = some c := by
          have := (List.findIdx?_eq_some_iff_getElem.mp hk).2.1
          rw [List.getElem?_eq_some_iff] at hget
          obtain ⟨hlt, rfl⟩ := hget
          simpa using this
        obtain ⟨c', hclasses, -⟩ := hview.sound old hmem
        obtain rfl : c' = c := by simpa [hclasses] using hhead
        obtain ⟨o', ho', heq⟩ := hkeeps old hmem
        exact ⟨o', ho', heq.trans hclasses⟩

theorem view_unary (hunary : ic.unary 0 = .ok receivers) : View ic.checks receivers.checks := by
  unfold InlineCache.unary at hunary
  dsimp only at hunary
  split at hunary
  · cases hunary
  obtain ⟨checks, hchecks, hpure⟩ := bind_eq_ok.mp hunary
  obtain rfl := pure_eq_ok.mp hpure
  refine (show Yields True _ _ from ?_).post_of_ok hchecks
  refine Yields.foldlM View ⟨by simp, by simp⟩ fun done p rest cs _ hview => ?_
  split
  case isTrue hzero =>
    refine ⟨fun o ho => ?_, fun q hq hcount => ?_⟩
    · obtain ⟨c, hc, q, hq, hrest⟩ := hview.sound o ho
      exact ⟨c, hc, q, by simp [hq], hrest⟩
    · obtain hq | rfl := by simpa using hq
      · exact hview.complete q hq hcount
      · exact absurd hzero hcount
  case isFalse hcount =>
    rw [Yields.bind_iff]
    exact Yields.of_ok fun c hc => Yields.of_ok fun cs' hcs' => hview.merge hcount hc hcs'

theorem seen_iff_of_unary (hunary : ic.unary 0 = .ok receivers) :
    (∃ o ∈ receivers.checks, o.receiver = .ok c) ↔ Seen ic c := by
  have hview := view_unary hunary
  constructor
  · rintro ⟨o, ho, hc⟩
    obtain ⟨c', hclasses, p, hp, hcount, hp', -⟩ := hview.sound o ho
    obtain rfl : c' = c := by simpa [Observation.receiver, Observation.classAt, itemAt, orFault, hclasses] using hc
    exact ⟨p, hp, hcount, hp'⟩
  · rintro ⟨p, hp, hcount, hc⟩
    obtain ⟨o, ho, hclasses⟩ := hview.complete p hp hcount c hc
    exact ⟨o, ho, by simp [Observation.receiver, Observation.classAt, itemAt, orFault, hclasses]⟩

theorem Faithful.unary (hfaithful : Faithful h selector ic) (hunary : ic.unary 0 = .ok receivers) :
    Faithful h selector receivers := by
  intro o ho
  obtain ⟨c, hclasses, p, hp, -, hc, htarget⟩ := (view_unary hunary).sound o ho
  obtain ⟨c', hc', hresolve⟩ := hfaithful p hp
  obtain rfl : c = c' := by simpa [hc] using hc'
  exact ⟨c, by simp [Observation.receiver, Observation.classAt, itemAt, orFault, hclasses], by rw [hresolve, htarget]⟩

theorem target_of_hasOneTarget (hone : ic.hasOneTarget = true) (hf : ic.targetAt 0 = .ok f) :
    ∀ o ∈ ic.checks, o.target = f := by
  unfold InlineCache.hasOneTarget at hone
  unfold InlineCache.targetAt InlineCache.checkAt itemAt at hf
  split at hone
  · cases hone
  case h_2 p ps hchecks =>
    obtain rfl : p.target = f := by simpa [hchecks, orFault, bind, Except.bind, pure, Except.pure] using hf
    rw [hchecks]
    simpa using hone

/-! ## What guards admit -/

def Admits : Inst → ClassId → Prop
  | .checkClass classes _, c => ∃ o ∈ classes.checks, o.receiver = .ok c
  | .unary .checkSmi _, c => c = .smi
  | _, _ => False

theorem admits_classGuard {value : InstId} {d : Inst} (hd : classGuard ic value = .ok d) :
    d.args = [value] ∧ ∀ c, Admits d c ↔ ∃ o ∈ ic.checks, o.receiver = .ok c := by
  have hcheck : d = .checkClass ic value ∨ (d = .unary .checkSmi value ∧ ic.size = 1 ∧ ic.receiverAt 0 = .ok .smi) := by
    unfold classGuard at hd
    dsimp only at hd
    split at hd
    case isTrue hsize =>
      obtain ⟨c, hc, hd⟩ := bind_eq_ok.mp hd
      split at hd
      case isTrue hsmi => exact .inr ⟨(pure_eq_ok.mp hd).symm, hsize, by rw [hc, hsmi]⟩
      case isFalse => exact .inl (pure_eq_ok.mp hd).symm
    case isFalse => exact .inl (pure_eq_ok.mp hd).symm
  obtain rfl | ⟨rfl, hsize, hsmi⟩ := hcheck
  · exact ⟨rfl, fun c => .rfl⟩
  · obtain ⟨o, ho⟩ := List.length_eq_one_iff.mp hsize
    have hreceiver : o.receiver = .ok .smi := by
      simpa [InlineCache.receiverAt, InlineCache.checkAt, itemAt, orFault, ho, bind, Except.bind] using hsmi
    exact ⟨rfl, fun c => by simp [Admits, ho, hreceiver, eq_comm]⟩

/-! ## Instructions in front of a call -/

/-- What was in the graph does what it did and stays where it was. -/
structure Beside (g g' : FlowGraph) : Prop where
  code : ∀ j, (g.codeOf j).isSome = true → g'.codeOf j = g.codeOf j
  home : ∀ j, (g.codeOf j).isSome = true → g'.layout.home? j = g.layout.home? j

namespace Beside

theorem of_sameCode (h : g.SameCode g') : Beside g g' := ⟨fun j _ => h.code j, fun j _ => by rw [h.layout]⟩

theorem trans (h : Beside g g') (h' : Beside g' g'') : Beside g g'' where
  code j hj := (h'.code j (by rwa [h.code j hj])).trans (h.code j hj)
  home j hj := (h'.home j (by rwa [h.code j hj])).trans (h.home j hj)

end Beside

variable {call : InstId} {d : Inst}

theorem codeOf_nextId : g.codeOf g.nextId = none := by simp [FlowGraph.codeOf, FlowGraph.nextId]

theorem ne_nextId_of_codeOf {j : InstId} (hj : (g.codeOf j).isSome = true) : j ≠ g.nextId := by
  rintro rfl
  simp [codeOf_nextId] at hj

/-- A new instruction `d` is in the block of the call. -/
structure Inserted (g : FlowGraph) (call : InstId) (d : Inst) (g' : FlowGraph) : Prop where
  beside : Beside g g'
  code : g'.codeOf g.nextId = some d.bare
  home : g'.layout.home? g.nextId = g.layout.home? call

theorem leads_insertNew (h : (g.withInst { inst := d }).SameCode g') :
    Leads True g' (Edit.insertBefore call g.nextId) fun _ g'' => Inserted g call d g'' := by
  refine Leads.code_insertBefore.mono ?_
  rintro _ g₁ ⟨b, hb, -, h₁⟩
  have hcode (j : InstId) : g₁.codeOf j = (g.withInst { inst := d }).codeOf j := (h₁.code j).trans (h.code j)
  have hhome (j : InstId) : g₁.layout.home? j = if j = g.nextId then some b else g.layout.home? j := by
    rw [h₁.layout, FlowGraph.layout_withLayout, Layout.home?_place, h.layout]
    rfl
  refine ⟨⟨fun j hj => ?_, fun j hj => ?_⟩, ?_, ?_⟩
  · rw [hcode, FlowGraph.codeOf, FlowGraph.nodes_withInst, if_neg (ne_nextId_of_codeOf hj), FlowGraph.codeOf]
  · rw [hhome, if_neg (ne_nextId_of_codeOf hj)]
  · rw [hcode, FlowGraph.codeOf, FlowGraph.nodes_withInst, if_pos rfl]
    rfl
  · rw [hhome, if_pos rfl, ← hb, h.layout]
    rfl

theorem leads_insertCheck : Leads True g (insertCheck call d) fun _ g' => Inserted g call d g' := by
  unfold insertCheck
  rw [Leads.bind_iff, Leads.addInst_iff, Leads.bind_iff]
  exact FlowGraph.SameCode.frame.copyDeoptTarget.mono fun _ g₁ h₁ => leads_insertNew h₁

theorem leads_insertValue : Leads True g (insertValue call d) fun _ g' => Beside g g' := by
  unfold insertValue
  rw [Leads.bind_iff, Leads.addInst_iff, Leads.bind_iff]
  refine (leads_insertNew (.refl _)).mono fun _ g₁ h₁ => ?_
  rw [Leads.bind_iff, Leads.discard_iff, Leads.allocSsaIndex_iff]
  refine ⟨fun _ => h₁.beside.trans (.of_sameCode ?_), fun _ => trivial⟩
  have hsame : g₁.SameCode (g₁.withNode g.nextId fun n => { n with ssaIndex := some g₁.nextSsaIndex }) :=
    .withNode fun _ => rfl
  exact ⟨rfl, rfl, rfl, hsame.code⟩

theorem leads_getConstant {c : Constant} : Leads True g (Edit.getConstant c) fun _ g' => Beside g g' := by
  refine (Leads.getConstant (by simp)).mono ?_
  rintro i _ (⟨rfl, -⟩ | ⟨-, rfl⟩)
  · exact .of_sameCode (.refl _)
  · refine ⟨fun j hj => ?_, fun j _ => rfl⟩
    obtain ⟨n, hn, -⟩ := Option.map_eq_some_iff.mp (Option.isSome_iff_exists.mp hj).choose_spec
    rw [FlowGraph.codeOf, FlowGraph.nodes_withInitial_of_some hn, FlowGraph.codeOf, hn]

/-! ## Guarded sites -/

/-- Argument `k` of the call is `v`, as it is pushed. -/
def IsArgument (g : FlowGraph) (call : InstId) (k : Nat) (v : InstId) : Prop :=
  ∃ n p m, g.nodes[call.index]? = some n ∧ n.inst.arguments[k]? = some p ∧ g.nodes[p.index]? = some m ∧
    m.inst.args[0]? = some v

def IsComplete (g : FlowGraph) (call : InstId) : Prop :=
  ∃ n, g.nodes[call.index]? = some n ∧ ∀ p ∈ n.inst.arguments, (g.codeOf p).isSome = true

/-- A check of the receiver was put in, which admits the classes that were seen. -/
structure Guarded (g : FlowGraph) (site : Site) (guard : Inst) (g' : FlowGraph) : Prop where
  receiver : ∃ v, IsArgument g site.inst 0 v ∧ guard.args = [v]
  admits : ∀ c, Admits guard c ↔ Seen site.cache c
  code : g'.codeOf g.nextId = some guard.bare
  home : g'.layout.home? g.nextId = g.layout.home? site.inst

theorem leads_argumentValue {k : Nat} :
    Leads True g (argumentValue call k) fun v g' => g' = g ∧ IsArgument g call k v := by
  unfold argumentValue
  simp only [Leads.bind_iff, Leads.get_iff, Leads.lift_iff]
  refine Yields.of_ok fun d hd => ?_
  refine Yields.of_ok fun p hp => ?_
  refine Yields.of_ok fun v hv => ⟨trivial, ?_⟩
  obtain ⟨n, hn, rfl⟩ := FlowGraph.inst_eq_ok.mp hd
  obtain ⟨m, hm, hv⟩ := FlowGraph.arg_eq_ok.mp hv
  exact ⟨n, p, m, hn, orFault_eq_ok.mp hp, hm, hv⟩

theorem leads_argumentValues : Leads True g (argumentValues call) fun _ g' => Beside g g' := by
  have hwalk (ks : List Nat) : Leads True g (ks.mapM (argumentValue call)) fun _ g' => g' = g := by
    induction ks with
    | nil => exact rfl
    | cons k ks ih =>
      rw [List.mapM_cons, Leads.bind_iff]
      refine leads_argumentValue.mono ?_
      rintro v _ ⟨rfl, -⟩
      rw [Leads.bind_iff]
      exact ih.mono fun _ _ h => h
  unfold argumentValues
  rw [Leads.bind_iff, Leads.get_iff, Leads.bind_iff, Leads.lift_iff]
  refine Yields.of_ok fun d _ => (hwalk _).mono ?_
  rintro _ _ rfl
  exact .of_sameCode (.refl _)

theorem leads_insertReceiverCheck : Leads True g (insertReceiverCheck site) fun _ g' =>
    ∃ guard, Guarded g site guard g' ∧ Beside g g' := by
  unfold insertReceiverCheck insertClassCheck
  rw [Leads.bind_iff]
  refine leads_argumentValue.mono ?_
  rintro v _ ⟨rfl, hv⟩
  rw [Leads.bind_iff, Leads.lift_iff]
  refine Yields.of_ok fun receivers hunary => ?_
  rw [Leads.bind_iff, Leads.lift_iff]
  refine Yields.of_ok fun guard hguard => leads_insertCheck.mono fun _ g₁ h₁ => ⟨guard, ?_, h₁.beside⟩
  obtain ⟨hargs, hadmits⟩ := admits_classGuard hguard
  exact ⟨⟨v, hv, hargs⟩, fun c => (hadmits c).trans (seen_iff_of_unary hunary), h₁.code, h₁.home⟩

theorem Guarded.beside {guard : Inst} (h : Guarded g site guard g') (h' : Beside g' g'') :
    Guarded g site guard g'' where
  receiver := h.receiver
  admits := h.admits
  code := by rw [h'.code _ (by simp [h.code]), h.code]
  home := by rw [h'.home _ (by simp [h.code]), h.home]

theorem Guarded.replaceCall {guard : Inst} (h : Guarded g site guard g') (hbeside : Beside g g')
    (hcomplete : IsComplete g site.inst) :
    Leads True g' (replaceCall site.inst d) fun _ g'' => Guarded g site guard g'' := by
  obtain ⟨n, hn, hpushes⟩ := hcomplete
  have hcall : (g.codeOf site.inst).isSome = true := by simp [FlowGraph.codeOf, hn]
  obtain ⟨n', hn', hbare⟩ := Option.map_eq_some_iff.mp ((hbeside.code _ hcall).trans (FlowGraph.codeOf_eq hn))
  have harguments : n'.inst.arguments = n.inst.arguments := by
    rw [← Inst.arguments_bare, hbare, Inst.arguments_bare]
  refine (leads_replaceCall hn').mono fun new g₁ h₁ => ⟨h.receiver, h.admits, ?_, ?_⟩
  all_goals
    have hnew : g.nextId ≠ new := by
      rintro rfl
      have hfresh := h₁.fresh
      simp [h.code] at hfresh
  · rw [h₁.code, if_neg hnew, h.code]
  · have hgone : ¬ (g.nextId = site.inst ∨ g.nextId ∈ n'.inst.arguments) := by
      rintro (heq | hmem)
      · exact ne_nextId_of_codeOf hcall heq.symm
      · exact ne_nextId_of_codeOf (hpushes _ (harguments ▸ hmem)) rfl
    rw [h₁.home, if_neg hgone, if_neg hnew, h.home]

theorem Guarded.replaceCallPlainly {guard : Inst} (h : Guarded g site guard g') (hbeside : Beside g g')
    (hcomplete : IsComplete g site.inst) :
    Leads True g' (replaceCallPlainly site.inst d) fun _ g'' => Guarded g site guard g'' := by
  unfold Calls.replaceCallPlainly
  rw [Leads.bind_iff]
  exact (h.replaceCall hbeside hcomplete).mono fun _ g₁ h₁ =>
    FlowGraph.SameCode.frame.setEnv.mono fun _ g₂ h₂ => h₁.beside (.of_sameCode h₂)

/-! ## Attempts -/

def Unguarded (ctx : Context) (site : Site) (g : FlowGraph) : Prop := needsClassCheck ctx site g = .ok (false, g)

def Behind (ctx : Context) (site : Site) (g g' : FlowGraph) : Prop :=
  Unguarded ctx site g ∨ ∃ guard, Guarded g site guard g'

theorem leads_needsClassCheck :
    Leads True g (needsClassCheck ctx site) fun needed g' => g' = g ∧ (needed = false → Unguarded ctx site g) := by
  have hsame : Leads True g (needsClassCheck ctx site) fun _ g' => g' = g := by
    unfold needsClassCheck
    split
    · exact rfl
    · rw [Leads.bind_iff]
      refine leads_argumentValue.mono ?_
      rintro v _ ⟨rfl, -⟩
      rw [Leads.bind_iff, Leads.get_iff, Leads.bind_iff, Leads.lift_iff]
      refine Yields.of_ok fun d _ => ?_
      split <;> exact rfl
  refine Leads.of_ok fun needed g' hrun => ?_
  obtain rfl := hsame.post_of_ok hrun
  exact ⟨rfl, fun h => by rw [Unguarded, hrun, h]⟩

/-- What is left to do behind a guard keeps the guard. -/
def KeepsGuard {α : Type} (g : FlowGraph) (site : Site) (rest : Edit α) : Prop :=
  ∀ guard g', Guarded g site guard g' → Beside g g' → Leads True g' rest fun _ g'' => Guarded g site guard g''

section Attempts

variable {α β : Type} {rest : Edit α}

theorem leads_guarded (hrest : KeepsGuard g site rest) :
    Leads True g (insertReceiverCheck site >>= fun _ => rest) fun _ g' => Behind ctx site g g' := by
  rw [Leads.bind_iff]
  refine leads_insertReceiverCheck.mono ?_
  rintro _ g₁ ⟨guard, hguarded, hbeside⟩
  exact (hrest guard g₁ hguarded hbeside).mono fun _ _ h => .inr ⟨guard, h⟩

theorem leads_guardedIfNeeded (hrest : KeepsGuard g site rest) :
    Leads True g (needsClassCheck ctx site >>= fun needed =>
      if needed then insertReceiverCheck site >>= fun _ => rest else rest) fun _ g' => Behind ctx site g g' := by
  rw [Leads.bind_iff]
  refine leads_needsClassCheck.mono ?_
  rintro needed _ ⟨rfl, hneeded⟩
  cases needed with
  | true => exact leads_guarded hrest
  | false => exact Leads.of_ok fun _ _ _ => .inl (hneeded rfl)

namespace KeepsGuard

theorem replaceCall (hcomplete : IsComplete g site.inst) : KeepsGuard g site (replaceCall site.inst d) :=
  fun _ _ h hbeside => h.replaceCall hbeside hcomplete

theorem replaceCallPlainly (hcomplete : IsComplete g site.inst) :
    KeepsGuard g site (replaceCallPlainly site.inst d) :=
  fun _ _ h hbeside => h.replaceCallPlainly hbeside hcomplete

theorem bind_pure {f : α → β} (h : KeepsGuard g site rest) : KeepsGuard g site (rest >>= fun a => pure (f a)) := by
  intro guard g' hguarded hbeside
  rw [Leads.bind_iff]
  exact (h guard g' hguarded hbeside).mono fun _ _ h => h

theorem discard (h : KeepsGuard g site rest) : KeepsGuard g site (discard rest) := by
  intro guard g' hguarded hbeside
  rw [Leads.discard_iff]
  exact h guard g' hguarded hbeside

theorem bind {m : Edit α} {f : α → Edit β} (hm : ∀ g', Leads True g' m fun _ g'' => Beside g' g'')
    (hf : ∀ a, KeepsGuard g site (f a)) : KeepsGuard g site (m >>= f) := by
  intro guard g' hguarded hbeside
  rw [Leads.bind_iff]
  exact (hm g').mono fun a g'' h => hf a guard g'' (hguarded.beside h) (hbeside.trans h)

theorem argument {k : Nat} {f : InstId → Edit β} (hf : ∀ a, KeepsGuard g site (f a)) :
    KeepsGuard g site (argumentValue site.inst k >>= f) := by
  refine bind (fun g' => leads_argumentValue.mono ?_) hf
  rintro v _ ⟨rfl, -⟩
  exact .of_sameCode (.refl _)

end KeepsGuard

theorem leads_charCode {cls : ClassId} {f : Inst → Edit Bool} (hf : ∀ d, KeepsGuard g site (f d)) :
    Leads True g (charCodeLoad site cls >>= f) fun _ g' => Behind ctx site g g' := by
  have hcheck (d : Inst) (g' : FlowGraph) : Leads True g' (insertCheck site.inst d) fun _ g'' => Beside g' g'' :=
    leads_insertCheck.mono fun _ _ h => h.beside
  unfold charCodeLoad
  simp only [bind_assoc]
  rw [Leads.bind_iff]
  refine leads_argumentValue.mono ?_
  rintro string _ ⟨rfl, -⟩
  rw [Leads.bind_iff]
  refine leads_argumentValue.mono ?_
  rintro index _ ⟨rfl, -⟩
  exact leads_guarded (.bind (hcheck _) fun _ => .bind (hcheck _) fun _ => hf _)

variable (hcomplete : IsComplete g site.inst)

include hcomplete

theorem leads_inlineFieldGetter {field : Field} :
    Leads True g (inlineFieldGetter ctx site field) fun _ g' => Behind ctx site g g' := by
  unfold inlineFieldGetter
  exact leads_guardedIfNeeded (.argument fun _ => (KeepsGuard.replaceCallPlainly hcomplete).bind_pure)

theorem leads_inlineLength {recognized : Recognized} {offset : Nat} {immutable : Bool} :
    Leads True g (inlineLength site recognized offset immutable) fun _ g' => Behind ctx site g g' := by
  unfold inlineLength
  exact leads_guarded (.argument fun _ => (KeepsGuard.replaceCallPlainly hcomplete).bind_pure)

theorem leads_inlineCapacity : Leads True g (inlineCapacity site) fun _ g' => Behind ctx site g g' := by
  unfold inlineCapacity
  exact leads_guarded (.argument fun _ => .bind (fun _ => leads_insertValue) fun _ =>
    (KeepsGuard.replaceCallPlainly hcomplete).bind_pure)

theorem leads_inlineIsEmpty : Leads True g (inlineIsEmpty site) fun _ g' => Behind ctx site g g' := by
  unfold inlineIsEmpty
  exact leads_guarded (.argument fun _ => .bind (fun _ => leads_insertValue) fun _ =>
    .bind (fun _ => leads_getConstant) fun _ => (KeepsGuard.replaceCallPlainly hcomplete).bind_pure)

theorem leads_inlineFieldSetter {field : Field} :
    Leads True g (inlineFieldSetter ctx site field) fun _ g' => Behind ctx site g g' := by
  have hlast {d : Inst} : KeepsGuard g site (do
      Calls.replaceCallPlainly site.inst d
      return true) := (KeepsGuard.replaceCallPlainly hcomplete).bind_pure
  unfold inlineFieldSetter
  refine leads_guardedIfNeeded (.argument fun _ => .argument fun value => .bind (fun g' => ?_) fun smi => ?_)
  · rw [Leads.lift_iff]
    exact Yields.of_ok fun _ _ => .of_sameCode (.refl _)
  · cases smi with
    | true => exact .bind (fun _ => leads_insertCheck.mono fun _ _ h => h.beside) fun _ => hlast
    | false => exact hlast

theorem leads_inlineUnary {opcode : Opcode} {receiver : InstId} :
    Leads True g (inlineUnary site opcode receiver) fun _ g' => Behind ctx site g g' := by
  unfold inlineUnary
  exact leads_guarded (KeepsGuard.replaceCall hcomplete).discard.bind_pure

theorem leads_inlineMathFunction {function : Recognized} :
    Leads True g (inlineMathFunction site function) fun _ g' => Behind ctx site g g' := by
  unfold inlineMathFunction
  exact leads_guarded (.bind (fun _ => leads_argumentValues) fun _ =>
    (KeepsGuard.replaceCall hcomplete).discard.bind_pure)

theorem leads_inlineDoubleMethod {method : Recognized} {receiver : InstId} :
    Leads True g (inlineDoubleMethod site method receiver) fun changed g' => changed = true → Behind ctx site g g' := by
  unfold inlineDoubleMethod
  split
  case h_8 => exact fun h => by cases h
  case h_2 | h_3 => exact (leads_inlineMathFunction hcomplete).mono fun _ _ h _ => h
  all_goals exact (leads_inlineUnary hcomplete).mono fun _ _ h _ => h

end Attempts

/-- The ways in which the body of a function takes the place of a call. -/
inductive Inlining where
  | getter
  | setter
  | method

namespace Inlining

/-- The attempt, where `receivers` is the view of the feedback by receiver class. -/
def run (ctx : Context) (site : Site) (receivers : InlineCache) : Inlining → Edit Bool
  | getter => inlineGetter ctx site
  | setter => inlineSetter ctx site receivers
  | method => inlineMethod ctx site

def feedback (site : Site) (receivers : InlineCache) : Inlining → InlineCache
  | setter => receivers
  | getter | method => site.cache

end Inlining

/-- The body of `f` took the place of the call. All feedback names `f`, unless it is the capacity of growable
arrays, which is put in on the word of the first observation. -/
structure Inlines (ctx : Context) (site : Site) (ic : InlineCache) (f : FunctionId) (g g' : FlowGraph) : Prop where
  body : ic.targetAt 0 = .ok f
  function : ∃ fn, ctx.hierarchy.function f = .ok fn ∧
    (ic.hasOneTarget = true ∨ fn.recognized = .growableArrayCapacity)
  behind : Behind ctx site g g'

theorem leads_inlineGetter (hcomplete : IsComplete g site.inst) :
    Leads True g (inlineGetter ctx site) fun changed g' => changed = true →
    ∃ f, Inlines ctx site site.cache f g g' := by
  unfold inlineGetter attemptIf
  simp only [Leads.bind_iff, Leads.lift_iff]
  refine Yields.of_ok fun f hf => Yields.of_ok fun fn hfn => ?_
  have hdone {m : Edit Bool} (hm : Leads True g m fun _ g' => Behind ctx site g g') :
      Leads True g (if site.cache.hasOneTarget then m else pure false) fun changed g' =>
        changed = true → ∃ f, Inlines ctx site site.cache f g g' := by
    split
    case isTrue hone => exact hm.mono fun _ _ h _ => ⟨f, hf, ⟨fn, hfn, .inl hone⟩, h⟩
    case isFalse => exact fun h => by cases h
  split
  · exact hdone (leads_inlineFieldGetter hcomplete)
  · split
    case h_1 hcapacity => exact (leads_inlineCapacity hcomplete).mono fun _ _ h _ =>
      ⟨f, hf, ⟨fn, hfn, .inr hcapacity⟩, h⟩
    case h_2 => exact hdone (leads_inlineIsEmpty hcomplete)
    case h_3 => exact hdone (leads_inlineLength hcomplete)
    case h_4 => exact fun h => by cases h

theorem leads_inlineSetter (hcomplete : IsComplete g site.inst) :
    Leads True g (inlineSetter ctx site receivers) fun changed g' =>
      changed = true → ∃ f, Inlines ctx site receivers f g g' := by
  unfold inlineSetter
  split
  case isTrue => exact fun h => by cases h
  case isFalse hone =>
    simp only [Leads.bind_iff, Leads.lift_iff]
    refine Yields.of_ok fun f hf => Yields.of_ok fun fn hfn => ?_
    split
    · exact (leads_inlineFieldSetter hcomplete).mono fun _ _ h _ => ⟨f, hf, ⟨fn, hfn, .inl (by simpa using hone)⟩, h⟩
    · exact fun h => by cases h

theorem leads_inlineMethod (hcomplete : IsComplete g site.inst) :
    Leads True g (inlineMethod ctx site) fun changed g' => changed = true →
    ∃ f, Inlines ctx site site.cache f g g' := by
  unfold inlineMethod
  dsimp only
  split
  case isTrue => exact fun h => by cases h
  case isFalse hone =>
    simp only [Leads.bind_iff, Leads.lift_iff]
    refine Yields.of_ok fun cls _ => ?_
    refine Yields.of_ok fun f hf => ?_
    refine Yields.of_ok fun fn hfn => ?_
    have hdone {g' : FlowGraph} (h : Behind ctx site g g') : ∃ f, Inlines ctx site site.cache f g g' :=
      ⟨f, hf, ⟨fn, hfn, .inl (by simpa using hone)⟩, h⟩
    refine leads_argumentValue.mono ?_
    rintro receiver _ ⟨rfl, -⟩
    split
    · unfold inlineCharCodeAt
      exact (leads_charCode fun d => (KeepsGuard.replaceCall hcomplete).discard.bind_pure).mono fun _ _ h _ => hdone h
    split
    · unfold inlineCharAt
      exact (leads_charCode fun d => .bind (fun _ => leads_insertValue) fun _ =>
        (KeepsGuard.replaceCall hcomplete).discard.bind_pure).mono fun _ _ h _ => hdone h
    split
    · exact (leads_inlineUnary hcomplete).mono fun _ _ h _ => hdone h
    split
    · exact fun h => by cases h
    · exact (leads_inlineDoubleMethod hcomplete).mono fun _ _ h hchanged => hdone (h hchanged)

theorem Inlining.leads_run {kind : Inlining} (hcomplete : IsComplete g site.inst) :
    Leads True g (kind.run ctx site receivers) fun changed g' =>
      changed = true → ∃ f, Inlines ctx site (kind.feedback site receivers) f g g' := by
  cases kind with
  | getter => exact leads_inlineGetter hcomplete
  | setter => exact leads_inlineSetter hcomplete
  | method => exact leads_inlineMethod hcomplete

/-! ## Where the calls would have gone -/

theorem leads_setFeedback {i : InstId} {c : Call} (hi : g.inst i = .ok (.instanceCall c)) :
    Leads True g (setFeedback i ic) fun _ g' => g'.inst i = .ok (.instanceCall { c with feedback := some ic }) := by
  obtain ⟨n, hn, hinst⟩ := FlowGraph.inst_eq_ok.mp hi
  rw [setFeedback, Leads.modifyNode_iff]
  refine ⟨fun _ => ?_, fun _ => trivial⟩
  simp [FlowGraph.inst_eq_ok, FlowGraph.nodes_withNode_self, hn, hinst]

theorem site_of_call {i : InstId} {c : Call} (hi : g.inst i = .ok (.instanceCall c))
    (hsite : Site.at? g i = .ok (some site)) : site.selector = c.selector ∧ c.feedback = some site.cache := by
  obtain ⟨selector, token, arguments, feedback, checked⟩ := c
  unfold Site.at? at hsite
  rw [hi] at hsite
  cases feedback with
  | none => cases hsite
  | some cache =>
    by_cases hempty : cache.isEmpty = true
    · simp [hempty, bind, Except.bind, pure, Except.pure] at hsite
    · simp [hempty, bind, Except.bind, pure, Except.pure] at hsite
      simp [← hsite]

theorem leads_foresee {i : InstId} : Leads True g (foresee ctx i) fun changed g' => changed = true →
    ∀ site, Site.at? g' i = .ok (some site) → Faithful ctx.hierarchy site.selector site.cache := by
  have hrefused {g' : FlowGraph} : Leads True g' (pure false : Edit Bool) fun changed g'' => changed = true →
      ∀ site, Site.at? g'' i = .ok (some site) → Faithful ctx.hierarchy site.selector site.cache :=
    fun h => by cases h
  unfold foresee
  rw [Leads.bind_iff, Leads.get_iff, Leads.bind_iff, Leads.lift_iff]
  refine Yields.of_ok fun d hd => ?_
  split
  case h_2 => exact hrefused
  case h_1 selector token arguments ic checked =>
    split
    · exact hrefused
    simp only [Leads.bind_iff, Leads.get_iff, Leads.lift_iff]
    refine leads_argumentValue.mono ?_
    rintro receiver _ ⟨rfl, -⟩
    refine Yields.of_ok fun cls _ => ?_
    split
    · exact hrefused
    split
    case h_2 => exact hrefused
    case h_1 target hresolve =>
      rw [Leads.bind_iff]
      refine (leads_setFeedback hd).mono fun _ g' hg' _ site hsite => ?_
      obtain ⟨hselector, hcache⟩ := site_of_call hg' hsite
      rw [hselector, ← Option.some_inj.mp hcache]
      intro o ho
      obtain rfl : o = ⟨[cls], target, 1⟩ := by simpa [foreseen, mem_withReceiver] using ho
      exact ⟨cls, rfl, hresolve⟩

/-- The feedback of a site was recorded faithfully, or it follows from the class of the receiver. -/
inductive Informed (ctx : Context) (site : Site) : Prop
  | recorded (hfaithful : Faithful ctx.hierarchy site.selector site.cache)
  | foreseen {g g' : FlowGraph} (hrun : foresee ctx site.inst g = .ok (true, g'))
      (hsite : Site.at? g' site.inst = .ok (some site))

theorem Informed.faithful (h : Informed ctx site) : Faithful ctx.hierarchy site.selector site.cache := by
  cases h with
  | recorded hfaithful => exact hfaithful
  | foreseen hrun hsite => exact leads_foresee.post_of_ok hrun rfl site hsite

theorem Faithful.resolve_eq (hfaithful : Faithful h selector ic) (hone : ic.hasOneTarget = true)
    (hf : ic.targetAt 0 = .ok f) (hc : ∃ o ∈ ic.checks, o.receiver = .ok c) : h.resolve c selector = some f := by
  obtain ⟨o, ho, hc⟩ := hc
  obtain ⟨c', hc', hresolve⟩ := hfaithful o ho
  obtain rfl : c = c' := by simpa [hc] using hc'
  rw [hresolve, target_of_hasOneTarget hone hf o ho]

theorem Inlining.resolve_eq {kind : Inlining} (hfaithful : Faithful h selector site.cache)
    (hreceivers : site.cache.unary 0 = .ok receivers) (hone : (kind.feedback site receivers).hasOneTarget = true)
    (hf : (kind.feedback site receivers).targetAt 0 = .ok f) (hc : Seen site.cache c) :
    h.resolve c selector = some f := by
  have hseen : ∃ o ∈ site.cache.checks, o.receiver = .ok c := by
    obtain ⟨o, ho, -, hc⟩ := hc
    exact ⟨o, ho, hc⟩
  cases kind with
  | getter => exact hfaithful.resolve_eq hone hf hseen
  | method => exact hfaithful.resolve_eq hone hf hseen
  | setter => exact (hfaithful.unary hreceivers).resolve_eq hone hf ((seen_iff_of_unary hreceivers).mpr hc)

/-- For every class that the guard of an inlined body admits, the call would have gone to the function whose body it
is. The capacity of growable arrays is the exception: there this holds if and only if all that was seen went to it. -/
theorem inlined_resolves_iff {kind : Inlining} (hinformed : Informed ctx site) (hcomplete : IsComplete g site.inst)
    (hreceivers : site.cache.unary 0 = .ok receivers) (hrun : kind.run ctx site receivers g = .ok (true, g')) :
    ∃ f fn, (kind.feedback site receivers).targetAt 0 = .ok f ∧ ctx.hierarchy.function f = .ok fn ∧
      (Unguarded ctx site g ∨ ∃ guard, Guarded g site guard g' ∧
        ((∀ c, Admits guard c → ctx.hierarchy.resolve c site.selector = some f) ↔
          (fn.recognized = .growableArrayCapacity → ∀ o ∈ site.cache.checks, o.count ≠ 0 → o.target = f))) := by
  obtain ⟨f, hbody, ⟨fn, hfn, hone⟩, hbehind⟩ := (Inlining.leads_run hcomplete).post_of_ok hrun rfl
  refine ⟨f, fn, hbody, hfn, hbehind.imp_right ?_⟩
  rintro ⟨guard, hguarded⟩
  refine ⟨guard, hguarded, fun hall hcapacity o ho hcount => ?_, fun hcapacity c hc => ?_⟩
  · obtain ⟨c, hc, hresolve⟩ := hinformed.faithful o ho
    have hf := hall c ((hguarded.admits c).mpr ⟨o, ho, hcount, hc⟩)
    rw [hresolve, Option.some_inj] at hf
    exact hf
  · have hseen := (hguarded.admits c).mp hc
    obtain hone | hrecognized := hone
    · exact Inlining.resolve_eq hinformed.faithful hreceivers hone hbody hseen
    · obtain ⟨o, ho, hcount, hc⟩ := hseen
      obtain ⟨c', hc', hresolve⟩ := hinformed.faithful o ho
      obtain rfl : c = c' := by simpa [hc] using hc'
      rw [hresolve, hcapacity hrecognized o ho hcount]

/-! ## Two getters of one name -/

/-- The core library and a class, number 64, with a getter of its own for a capacity. -/
def twoCapacities : Hierarchy :=
  match (Hierarchy.core.addClass "A" none).2.addMethod ⟨64⟩ "get:_capacity" .getter .unknown false with
  | .ok (_, h) => h
  | .error _ => .core

def capacityContext : Context := { hierarchy := twoCapacities }

/-- What was seen at a call of the getter: a growable array and an object of the class. -/
def capacityCache : InlineCache where
  selector := "get:_capacity"
  tested := 1
  checks := [⟨[.growableArray], ⟨95⟩, 1⟩, ⟨[⟨64⟩], ⟨129⟩, 1⟩]

def capacitySite : Site := ⟨⟨2⟩, "get:_capacity", .get, capacityCache⟩

def capacityCall : List Command :=
  [.inst (.loadLocal 0), .instanceCall "get:_capacity" .get [⟨0⟩] 1 (some capacityCache), .inst (.unary .ret ⟨2⟩)]

/-- What construction and inlining make of the call. -/
structure CapacityRun (r g g' : FlowGraph) : Prop where
  built : ∃ b, Built b r ∧ Command.script capacityCall FlowGraph.normalEntry (FlowGraph.new "f" 1 0) = some (b, r)
  constructed : Ssa.construct.run r = .ok (.ok (), g)
  clean : g.Consistent
  site : ∃ c, g.inst ⟨2⟩ = .ok (.instanceCall c) ∧ c.feedback = some capacityCache
  complete : IsComplete g ⟨2⟩
  needed : ¬ Unguarded capacityContext capacitySite g
  run : inlineGetter capacityContext capacitySite g = .ok (true, g')
  /-- The whole stage puts the same guard in front of the same load. -/
  stage : ∃ g'' classes, Calls.specialize capacityContext g = .ok (true, g'') ∧
    g''.insts ⟨1⟩ = [⟨6⟩, ⟨7⟩, ⟨8⟩, ⟨3⟩] ∧ g''.inst ⟨6⟩ = .ok (.checkClass classes ⟨5⟩) ∧
    classes.checks.map Observation.classes = [[.growableArray], [⟨64⟩]]

def capacityHolds (r : FlowGraph) : Bool :=
  match Ssa.construct.run r with
  | .ok (.ok (), g) =>
    match g.inst ⟨2⟩, needsClassCheck capacityContext capacitySite g,
      inlineGetter capacityContext capacitySite g, Calls.specialize capacityContext g with
    | .ok (.instanceCall c), .ok (true, _), .ok (true, _), .ok (true, g'') =>
      match g''.inst ⟨6⟩ with
      | .ok (.checkClass classes v) =>
        v == ⟨5⟩ && classes.checks.map Observation.classes == [[.growableArray], [⟨64⟩]] &&
          g''.insts ⟨1⟩ == [⟨6⟩, ⟨7⟩, ⟨8⟩, ⟨3⟩] && c.feedback == some capacityCache && c.arguments == [⟨1⟩] &&
          (g.codeOf ⟨1⟩).isSome && g.check.toOption == some []
      | _ => false
    | _, _, _, _ => false
  | _ => false

theorem exists_capacityRun : ∃ r g g', CapacityRun r g g' := by
  have hcompute : ((Command.script capacityCall FlowGraph.normalEntry (FlowGraph.new "f" 1 0)).map
      (capacityHolds ·.2)) = some true := by decide +kernel
  obtain ⟨⟨b₀, r⟩, hscript, hholds⟩ := Option.map_eq_some_iff.mp hcompute
  have hstart : Built FlowGraph.normalEntry (FlowGraph.new "f" 1 0) := @Built.start "f" 1 0 none (by decide)
  unfold capacityHolds at hholds
  split at hholds
  case h_2 => cases hholds
  case h_1 g hg =>
    split at hholds
    case h_2 => cases hholds
    case h_1 c g₁ g' g'' hcall hneeded hrun hstage =>
      split at hholds
      case h_2 => cases hholds
      case h_1 classes v hguard =>
        simp only [Bool.and_eq_true, beq_iff_eq, toOption_eq_some_iff] at hholds
        obtain ⟨⟨⟨⟨⟨⟨rfl, hclasses⟩, hinsts⟩, hfeedback⟩, harguments⟩, hpush⟩, hclean⟩ := hholds
        obtain ⟨n, hn, hinst⟩ := FlowGraph.inst_eq_ok.mp hcall
        have hcomplete : IsComplete g ⟨2⟩ := ⟨n, hn, by simpa [hinst, Inst.arguments, harguments] using hpush⟩
        exact ⟨r, g, g', ⟨b₀, hstart.script hscript, hscript⟩, hg, hclean, ⟨c, hcall, hfeedback⟩, hcomplete,
          by simp [Unguarded, hneeded], hrun, g'', classes, hstage, hinsts, hguard, hclasses⟩

theorem faithful_capacitySite : Faithful capacityContext.hierarchy capacitySite.selector capacitySite.cache := by
  intro o ho
  obtain rfl | rfl : o = ⟨[.growableArray], ⟨95⟩, 1⟩ ∨ o = ⟨[⟨64⟩], ⟨129⟩, 1⟩ := by
    simpa [capacitySite, capacityCache] using ho
  · exact ⟨.growableArray, rfl, by decide +kernel⟩
  · exact ⟨⟨64⟩, rfl, by decide +kernel⟩

/-- Objects of the class pass the guard of a body that is not that of their getter. -/
theorem capacityCall_misdirected : ∃ r g g', CapacityRun r g g' ∧
    Faithful capacityContext.hierarchy capacitySite.selector capacitySite.cache ∧
    capacitySite.cache.targetAt 0 = .ok ⟨95⟩ ∧ ∃ guard, Guarded g capacitySite guard g' ∧ Admits guard ⟨64⟩ ∧
      capacityContext.hierarchy.resolve ⟨64⟩ capacitySite.selector = some ⟨129⟩ := by
  obtain ⟨r, g, g', hcapacity⟩ := exists_capacityRun
  obtain ⟨f, hinlines⟩ := (leads_inlineGetter hcapacity.complete).post_of_ok hcapacity.run rfl
  obtain ⟨guard, hguarded⟩ := hinlines.behind.resolve_left hcapacity.needed
  refine ⟨r, g, g', hcapacity, faithful_capacitySite, rfl, guard, hguarded, ?_, by decide +kernel⟩
  exact (hguarded.admits _).mpr ⟨⟨[⟨64⟩], ⟨129⟩, 1⟩, by simp [capacitySite, capacityCache], by decide, rfl⟩

theorem capacityCall_other_target : ∃ r g g', CapacityRun r g g' ∧ ∃ guard, Guarded g capacitySite guard g' ∧
    ¬ ∀ c, Admits guard c → capacityContext.hierarchy.resolve c capacitySite.selector = some ⟨95⟩ := by
  obtain ⟨r, g, g', hcapacity⟩ := exists_capacityRun
  obtain ⟨receivers, hreceivers⟩ : ∃ receivers, capacitySite.cache.unary 0 = .ok receivers := by
    have hcompute : (capacitySite.cache.unary 0).toOption.isSome = true := by decide +kernel
    obtain ⟨receivers, hreceivers⟩ := Option.isSome_iff_exists.mp hcompute
    exact ⟨receivers, toOption_eq_some_iff.mp hreceivers⟩
  have hinformed : Informed capacityContext capacitySite := .recorded faithful_capacitySite
  have hrun : Inlining.getter.run capacityContext capacitySite receivers g = .ok (true, g') :=
    hcapacity.run
  obtain ⟨f, fn, hf, hfn, hguard⟩ := inlined_resolves_iff hinformed hcapacity.complete hreceivers hrun
  obtain rfl : ⟨95⟩ = f := Except.ok.inj hf
  obtain ⟨guard, hguarded, hiff⟩ := hguard.resolve_left hcapacity.needed
  refine ⟨r, g, g', hcapacity, guard, hguarded, fun hall => ?_⟩
  have hrecognized : fn.recognized = .growableArrayCapacity := by
    have hcompute : (capacityContext.hierarchy.function ⟨95⟩).toOption.map Function.recognized =
      some .growableArrayCapacity := by
      decide +kernel
    simpa [hfn, Except.toOption] using hcompute
  have hother := hiff.mp hall hrecognized ⟨[⟨64⟩], ⟨129⟩, 1⟩ (by simp [capacitySite, capacityCache]) (by decide)
  simp at hother

end Calls

end Midend
