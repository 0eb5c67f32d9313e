import Midend.Proofs.Ranges.Boundaries
import Midend.Proofs.Sharing.Walk

/-! # Where the redundancy test goes wrong

Equal keys mean equal values as long as neither instruction depends on memory, but the test asks only the first of two.
That is the one thing that can mislead it, and what it then takes for one value are two loads of a field.
-/

namespace Midend

variable {d e : Inst} {key : ValueKey}

/-! ## Instructions of one key -/

/-- Instructions of the opcode depend on memory or have to stay where they are, whatever else they say. -/
def Opcode.isAffected : Opcode → Bool
  | parameter | loadLocal | storeLocal | pushArgument | phi | instanceCall | polymorphicInstanceCall | staticCall
  | allocateObject | createArray | storeField | loadIndexed | storeIndexed | constraint | goto | branch | ret
  | throw => true
  | _ => false

theorem InlineCache.hasReceiver_of_receivers {ic : InlineCache} {receivers : List ClassId} {cls : ClassId}
    (h : ic.checks.mapM (·.receiver) = .ok receivers) : ic.hasReceiver cls = .ok (receivers.any (· == cls)) := by
  unfold InlineCache.hasReceiver
  generalize ic.checks = checks at h
  induction checks generalizing receivers with
  | nil =>
    obtain rfl := pure_eq_ok.mp h
    rfl
  | cons o checks ih =>
    simp only [List.mapM_cons, bind_eq_ok, pure_eq_ok] at h
    obtain ⟨c, hc, rest, hrest, rfl⟩ := h
    rw [List.anyM_cons, List.any_cons, ih hrest, hc]
    cases heq : c == cls <;> simp only [bind, pure, Except.bind, Except.pure, heq] <;> rfl

namespace Inst

theorem isAffected_opcode (hfits : d.fits = true) (hd : d.affectedBySideEffect = .ok false) :
    d.opcode.isAffected = false := by
  cases d with
  | constant | checkClass | checkArrayBound | loadField | instanceOf | assertAssignable | invokeMath => rfl
  | unary o =>
    cases o with
    | ret | throw => exact absurd hd (by simp [affectedBySideEffect])
    | _ => first | rfl | cases hfits
  | binary o | binaryOp o | unaryOp o => cases o <;> first | rfl | cases hfits
  | compare c =>
    simp only [opcode, Comparison.opcode]
    split <;> rfl
  | _ => cases hd

/-- Where the opcode does not tell that an instruction is affected, its classes, its field or its operands do. -/
theorem affected_cases (h : e.affectedBySideEffect ≠ .ok false) : e.opcode.isAffected = true ∨
    (∃ ic a, e = .checkClass ic a) ∨ (∃ offset r f a, e = .loadField offset r f false a) ∨
      ∃ c, e = .compare c ∧ c.isGeneric = true := by
  cases e with
  | constant | checkArrayBound | instanceOf | assertAssignable | invokeMath | binary | binaryOp | unaryOp =>
    exact absurd rfl h
  | unary o =>
    cases o with
    | ret | throw => exact .inl rfl
    | _ => exact absurd rfl h
  | checkClass ic a => exact .inr (.inl ⟨ic, a, rfl⟩)
  | loadField offset r f immutable a =>
    obtain rfl : immutable = false := by simpa [affectedBySideEffect] using h
    exact .inr (.inr (.inl ⟨offset, r, f, a, rfl⟩))
  | compare c => exact .inr (.inr (.inr ⟨c, rfl, by simpa [affectedBySideEffect] using h⟩))
  | _ => exact .inl rfl

theorem receivers_of_valueMark {ic : InlineCache} {a : InstId} {mark : ValueMark}
    (h : (checkClass ic a).valueMark = .ok mark) :
    ∃ receivers, ic.checks.mapM (·.receiver) = .ok receivers ∧ mark = .classes receivers := by
  obtain ⟨receivers, hreceivers, hmark⟩ := bind_eq_ok.mp h
  exact ⟨receivers, hreceivers, (pure_eq_ok.mp hmark).symm⟩

theorem loads_of_valueKey (hfits : d.fits = true) (hd : d.affectedBySideEffect = .ok false)
    (he : e.affectedBySideEffect ≠ .ok false) (hkey : d.valueKey = .ok key) (hkey' : e.valueKey = .ok key) :
    ∃ offset a r r' f f', d = .loadField offset r f true a ∧ e = .loadField offset r' f' false a := by
  obtain ⟨hmark, hopcode, hargs⟩ := valueKey_eq_ok.mp hkey
  obtain ⟨hmark', hopcode', hargs'⟩ := valueKey_eq_ok.mp hkey'
  obtain haffected | ⟨ic, a, rfl⟩ | ⟨offset, r', f', a, rfl⟩ | ⟨c, rfl, hgeneric⟩ := affected_cases he
  · rw [← hopcode', hopcode, isAffected_opcode hfits hd] at haffected
    cases haffected
  · obtain ⟨receivers, hreceivers, heq⟩ := receivers_of_valueMark hmark'
    rw [heq] at hmark
    cases d with
    | checkClass ic' a' =>
      obtain ⟨receivers', hreceivers', heq'⟩ := receivers_of_valueMark hmark
      obtain rfl : receivers = receivers' := by simpa using heq'
      refine absurd (Eq.trans ?_ hd) he
      simp only [affectedBySideEffect, InlineCache.hasReceiver_of_receivers hreceivers,
        InlineCache.hasReceiver_of_receivers hreceivers']
    | _ => cases hmark
  · rw [← Except.ok.inj hmark'] at hmark
    cases d with
    | loadField offset' r f immutable a' =>
      obtain rfl : offset' = offset := by simpa [valueMark] using hmark
      obtain rfl : a' = a := by simpa [args] using hargs.symm.trans hargs'
      obtain rfl : immutable = true := by simpa [affectedBySideEffect] using hd
      exact ⟨offset', a', r, r', f, f', rfl, rfl⟩
    | checkClass ic a' =>
      obtain ⟨receivers, -, heq⟩ := receivers_of_valueMark hmark
      cases heq
    | _ => cases hmark
  · rw [← Except.ok.inj hmark'] at hmark
    cases d with
    | compare c' =>
      have hops : c'.op = c.op ∧ c'.operands = c.operands := by simpa [valueMark] using hmark
      have hkinds : c'.opcode = c.opcode := hopcode.symm.trans hopcode'
      have hnot : c'.isGeneric = false := by simpa [affectedBySideEffect] using hd
      have hkind : c'.kind = c.kind := by
        unfold Comparison.opcode at hkinds
        cases hc' : c'.kind <;> cases hc : c.kind <;> simp [hc', hc] at hkinds ⊢
      rw [Comparison.isGeneric, hkind, hops.2, ← Comparison.isGeneric, hgeneric] at hnot
      cases hnot
    | checkClass ic a' =>
      obtain ⟨receivers, -, heq⟩ := receivers_of_valueMark hmark
      cases heq
    | _ => cases hmark

end Inst

namespace Ranges

variable {g : FlowGraph} {ν : InstId → Int} {L : Int} {a b check : InstId} {length : Boundary}

/-! ## The test -/

/-- Definitions of equal keys have the same value if neither is affected by side effects. -/
def KeysAgree (g : FlowGraph) (ν : InstId → Int) : Prop :=
  ∀ a b d e key, g.inst a = .ok d → g.inst b = .ok e → d.affectedBySideEffect = .ok false →
    e.affectedBySideEffect = .ok false → d.valueKey = .ok key → e.valueKey = .ok key → ν a = ν b

/-- Definitions that are taken for the same, although the second one is affected by side effects. -/
def Mistaken (g : FlowGraph) (a b : InstId) : Prop :=
  TakenForSame g a b ∧ ∀ e, g.inst b = .ok e → e.affectedBySideEffect ≠ .ok false

theorem Confused.mistaken (hkeys : KeysAgree g ν) (h : Confused g ν) : ∃ a b, Mistaken g a b ∧ ν a ≠ ν b := by
  obtain ⟨a, b, hsame, hne⟩ := h
  refine ⟨a, b, ⟨hsame, fun e he hunaffected => ?_⟩, hne⟩
  obtain ⟨d, e', key, hd, he', haffected, hkey, hkey'⟩ := hsame
  obtain rfl := Except.ok.inj (he.symm.trans he')
  exact hne (hkeys a b d e key hd he haffected hunaffected hkey hkey')

/-- What is taken for the same by mistake are two loads of one field, of which only the first says that it is final. -/
theorem Mistaken.loads (hfits : ∀ d, g.inst a = .ok d → d.fits = true) (h : Mistaken g a b) :
    ∃ offset o r r' f f', g.inst a = .ok (.loadField offset r f true o) ∧
      g.inst b = .ok (.loadField offset r' f' false o) := by
  obtain ⟨⟨d, e, key, hd, he, haffected, hkey, hkey'⟩, hmistaken⟩ := h
  obtain ⟨offset, o, r, r', f, f', rfl, rfl⟩ :=
    Inst.loads_of_valueKey (hfits d hd) haffected (hmistaken e he) hkey hkey'
  exact ⟨offset, o, r, r', f, f', hd, he⟩

/-- The index of a bounds check that is found to be redundant is not negative, and less than the length of the array
unless two definitions are mistaken for one. -/
theorem within_or_mistaken (h : Valuation g ν) (hkeys : KeysAgree g ν) (hlength : Denotes ν length L)
    (hrun : isRedundant g check length = .ok true) :
    ∃ cls array index, g.inst check = .ok (.checkArrayBound cls array index) ∧ 0 ≤ ν index ∧
      (ν index < L ∨ ∃ a b, Mistaken g a b ∧ ν a ≠ ν b) := by
  obtain ⟨cls, array, index, r, hd, hr, hwithin⟩ := within_of_isRedundant hrun
  obtain ⟨hnonneg, hless⟩ := within_or_confused_of_isWithin h (h.smi index) (h.ranges index r hr .lower)
    (h.ranges index r hr .upper) hlength hwithin
  exact ⟨cls, array, index, hd, hnonneg, hless.imp_right (·.mistaken hkeys)⟩

theorem keysAgree_indexBelowLength : KeysAgree indexBelowLength twoAndOne := by
  intro a b i j key hi hj haffected _ hkey hkey'
  obtain ⟨k, rfl⟩ | ⟨rfl, ha⟩ := inst_indexBelowLength hi
  · cases haffected
  · obtain ⟨k, rfl⟩ | ⟨rfl, hb⟩ := inst_indexBelowLength hj
    · have heq : (Inst.parameter k).valueKey = (Inst.checkArrayBound .array ⟨0⟩ ⟨1⟩).valueKey := hkey'.trans hkey.symm
      cases heq
    · simp [twoAndOne, ha, hb]

/-- One is less than two, and nothing is mistaken. -/
theorem indexBelowLength_unmistaken : isRedundant indexBelowLength ⟨2⟩ (.symbol ⟨0⟩ 0) = .ok true ∧
    ∃ cls array index, indexBelowLength.inst ⟨2⟩ = .ok (.checkArrayBound cls array index) ∧ 0 ≤ twoAndOne index ∧
      (twoAndOne index < 2 ∨ ∃ a b, Mistaken indexBelowLength a b ∧ twoAndOne a ≠ twoAndOne b) := by
  have hrun : isRedundant indexBelowLength ⟨2⟩ (.symbol ⟨0⟩ 0) = .ok true := by rfl
  have hlength : Denotes twoAndOne (.symbol ⟨0⟩ 0) 2 := rfl
  exact ⟨hrun, within_or_mistaken valuation_indexBelowLength keysAgree_indexBelowLength hlength hrun⟩

/-! ## A field that is read as final and as not -/

/-- An index that is less than a field of an object read as final, and a check of it against an array that is as long
as the same field read as one that changes. -/
def finalAndNot : FlowGraph :=
  { FlowGraph.new "f" 2 0 with
    nodes := #[{ inst := .parameter 0 }, { inst := .parameter 1, range := some ⟨.constant 0, .symbol ⟨2⟩ (-1)⟩ },
      { inst := .loadField 16 .smi .unknown true ⟨0⟩ }, { inst := .loadField 16 .smi .unknown false ⟨0⟩ },
      { inst := .checkArrayBound .array ⟨0⟩ ⟨1⟩ }] }

/-- The field was one, then it was set to five, and the index is three. -/
def rewritten (d : InstId) : Int := if d.index = 1 then 3 else if d.index = 2 then 5 else if d.index = 3 then 1 else 0

theorem inst_finalAndNot {d : InstId} {i : Inst} (h : finalAndNot.inst d = .ok i) :
    (∃ k, i = .parameter k) ∨ i = .loadField 16 .smi .unknown true ⟨0⟩ ∧ d.index = 2 ∨
      i = .loadField 16 .smi .unknown false ⟨0⟩ ∨ i = .checkArrayBound .array ⟨0⟩ ⟨1⟩ ∧ d.index = 4 := by
  obtain ⟨k⟩ := d
  match k with
  | 0 | 1 => exact .inl ⟨_, (Except.ok.inj h).symm⟩
  | 2 => exact .inr (.inl ⟨(Except.ok.inj h).symm, rfl⟩)
  | 3 => exact .inr (.inr (.inl (Except.ok.inj h).symm))
  | 4 => exact .inr (.inr (.inr ⟨(Except.ok.inj h).symm, rfl⟩))
  | k + 5 => cases h

theorem valuation_finalAndNot : Valuation finalAndNot rewritten where
  smi d := by
    unfold rewritten
    split
    · decide
    · split
      · decide
      · split <;> decide
  ranges d r hr s := by
    obtain ⟨_ | _ | k⟩ := d
    · cases Except.ok.inj hr
    · obtain rfl := Option.some_inj.mp (Except.ok.inj hr)
      cases s <;> simp [Side.Holds, Side.pick, rewritten]
    · obtain _ | _ | _ | k := k <;> cases hr
  constants d v hv := by obtain ⟨_ | _ | _ | _ | _ | k⟩ := d <;> cases hv
  constraints d r inputs a hi := by
    obtain ⟨k, hk⟩ | ⟨hk, -⟩ | hk | ⟨hk, -⟩ := inst_finalAndNot hi <;> cases hk
  sums d l r o hi := by obtain ⟨k, hk⟩ | ⟨hk, -⟩ | hk | ⟨hk, -⟩ := inst_finalAndNot hi <;> cases hk
  differences d l r o hi := by obtain ⟨k, hk⟩ | ⟨hk, -⟩ | hk | ⟨hk, -⟩ := inst_finalAndNot hi <;> cases hk

theorem keysAgree_finalAndNot : KeysAgree finalAndNot rewritten := by
  have hindex {d : InstId} {i : Inst} (hi : finalAndNot.inst d = .ok i)
    (haffected : i.affectedBySideEffect = .ok false) :
      i.opcode = .loadField ∧ d.index = 2 ∨ i.opcode = .checkArrayBound ∧ d.index = 4 := by
    obtain ⟨k, rfl⟩ | ⟨rfl, hd⟩ | rfl | ⟨rfl, hd⟩ := inst_finalAndNot hi
    · cases haffected
    · exact .inl ⟨rfl, hd⟩
    · cases haffected
    · exact .inr ⟨rfl, hd⟩
  intro a b d e key hd he haffected haffected' hkey hkey'
  have hopcodes : d.opcode = e.opcode :=
    (Inst.valueKey_eq_ok.mp hkey).2.1.symm.trans (Inst.valueKey_eq_ok.mp hkey').2.1
  unfold rewritten
  obtain ⟨hop, ha⟩ | ⟨hop, ha⟩ := hindex hd haffected <;> obtain ⟨hop', hb⟩ | ⟨hop', hb⟩ := hindex he haffected'
  · rw [ha, hb]
  · cases hop.symm.trans (hopcodes.trans hop')
  · cases hop.symm.trans (hopcodes.trans hop')
  · rw [ha, hb]

/-- The check is found to be redundant, and three is not less than one. -/
theorem finalAndNot_out_of_bounds : Valuation finalAndNot rewritten ∧ KeysAgree finalAndNot rewritten ∧
    Denotes rewritten (.symbol ⟨3⟩ 0) 1 ∧ isRedundant finalAndNot ⟨4⟩ (.symbol ⟨3⟩ 0) = .ok true ∧
    finalAndNot.inst ⟨4⟩ = .ok (.checkArrayBound .array ⟨0⟩ ⟨1⟩) ∧ ¬ rewritten ⟨1⟩ < 1 :=
  ⟨valuation_finalAndNot, keysAgree_finalAndNot, rfl, rfl, rfl, by decide⟩

end Ranges

end Midend
