import Midend.Constants.Analysis
import Midend.Proofs.Execution

/-! # What knowledge says of values

Each element of the lattice stands for the values that it allows. Operations on small integers, comparisons, negation
and the length of a new array are evaluated exactly, and what is known of the inputs of an instruction then tells what
its result may be.
-/

namespace Midend

namespace Constant

theorem eq_of_same {a b : Constant} (h : (a == b) = true) :
    a = b ∨ ∃ i as bs, a = array i as ∧ b = array i bs := by
  change same a b = true at h
  cases a <;> cases b <;> simp_all [same]

theorem same_refl (a : Constant) : (a == a) = true := by
  change same a a = true
  cases a <;> simp [same]

theorem same_symm {a b : Constant} (h : (a == b) = true) : (b == a) = true := by
  obtain rfl | ⟨i, as, bs, rfl, rfl⟩ := eq_of_same h
  · exact same_refl a
  · exact beq_self_eq_true i

theorem same_trans {a b c : Constant} (hab : (a == b) = true) (hbc : (b == c) = true) : (a == c) = true := by
  obtain rfl | ⟨i, as, bs, rfl, rfl⟩ := eq_of_same hab
  · exact hbc
  · obtain rfl | ⟨j, bs', cs, heq, rfl⟩ := eq_of_same hbc
    · exact beq_self_eq_true i
    · obtain ⟨rfl, -⟩ := array.inj heq
      exact beq_self_eq_true i

theorem same_congr {a a' b b' : Constant} (ha : (a' == a) = true) (hb : (b' == b) = true) :
    (a' == b') = (a == b) := by
  refine Bool.eq_iff_iff.mpr ⟨fun h => ?_, fun h => ?_⟩
  · exact same_trans (same_symm ha) (same_trans h hb)
  · exact same_trans ha (same_trans h (same_symm hb))

theorem smi?_congr {a b : Constant} (h : (a == b) = true) : a.smi? = b.smi? := by
  obtain rfl | ⟨i, as, bs, rfl, rfl⟩ := eq_of_same h <;> rfl

theorem int?_congr {a b : Constant} (h : (a == b) = true) : a.int? = b.int? := by
  obtain rfl | ⟨i, as, bs, rfl, rfl⟩ := eq_of_same h <;> rfl

theorem eq_of_same_bool {a : Constant} {b : Bool} (h : (a == .bool b) = true) : a = .bool b := by
  obtain rfl | ⟨i, as, bs, -, heq⟩ := eq_of_same h
  · rfl
  · cases heq

theorem eq_of_same_null {a : Constant} (h : (a == .null) = true) : a = .null := by
  obtain rfl | ⟨i, as, bs, -, heq⟩ := eq_of_same h
  · rfl
  · cases heq

end Constant

namespace Knowledge

/-- The value is one of those that the knowledge leaves open. -/
def Covers : Knowledge → Value → Prop
  | unknown, _ => False
  | known c, v => v.same (.constant c) = true
  | varying, _ => True

def Below (x y : Knowledge) : Prop := ∀ v, x.Covers v → y.Covers v

variable {x y : Knowledge} {v : Value}

theorem covers_known {c : Constant} : (known c).Covers v ↔ ∃ c', v = .constant c' ∧ (c' == c) = true := by
  cases v with
  | constant c' => simp [Covers, Value.same]
  | object i cls => simp [Covers, Value.same]

theorem Covers.constant (c : Constant) : (known c).Covers (.constant c) := Constant.same_refl c

theorem same_refl (x : Knowledge) : (x == x) = true := by
  cases x with
  | known c => exact Constant.same_refl c
  | _ => rfl

theorem same_symm (h : (x == y) = true) : (y == x) = true := by
  change same x y = true at h
  match x, y with
  | unknown, unknown | varying, varying => rfl
  | known a, known b => exact Constant.same_symm h

theorem below_of_same (h : (x == y) = true) : Below y x := by
  change same x y = true at h
  intro v hv
  match x, y with
  | unknown, unknown => exact hv
  | varying, _ => trivial
  | known a, known b =>
    obtain ⟨c, rfl, hc⟩ := covers_known.mp hv
    exact Constant.same_trans hc (Constant.same_symm h)

theorem below_join_left : Below x (x.join y) := by
  intro v hv
  match x, y with
  | unknown, _ => exact hv.elim
  | known a, unknown => exact hv
  | known a, known b =>
    show Covers (if a == b then known a else varying) v
    split
    · exact hv
    · trivial
  | known a, varying | varying, unknown | varying, known b | varying, varying => trivial

theorem below_join_right : Below y (x.join y) := by
  intro v hv
  match x, y with
  | unknown, y => exact hv
  | known a, unknown | varying, unknown => exact hv.elim
  | known a, known b =>
    show Covers (if a == b then known a else varying) v
    split
    case isTrue hsame =>
      obtain ⟨c, rfl, hc⟩ := covers_known.mp hv
      exact Constant.same_trans hc (Constant.same_symm hsame)
    case isFalse => trivial
  | known a, varying | varying, known b | varying, varying => trivial

/-! ## Folding -/

theorem shiftRight_of_fits {l r : Int} (hl : Word.Fits l) (hr : 63 ≤ r) : l >>> (63 : Nat) = l / 2 ^ r.toNat := by
  obtain ⟨hleast, hgreatest⟩ := hl
  unfold Word.least at hleast
  unfold Word.greatest at hgreatest
  have hle : 63 ≤ r.toNat := by omega
  have hpow : (2 : Int) ^ 63 ≤ 2 ^ r.toNat := by exact_mod_cast Nat.pow_le_pow_right (by decide) hle
  rw [Int.shiftRight_eq_div_pow]
  obtain hneg | hpos := lt_or_ge l 0
  · rw [Int.ediv_eq_neg_one_of_neg_of_le hneg (by omega), Int.ediv_eq_neg_one_of_neg_of_le hneg (by omega)]
  · rw [Int.ediv_eq_zero_of_lt hpos (by omega), Int.ediv_eq_zero_of_lt hpos (by omega)]

theorem exactResult_of_fold {op : Token} {l r z : Int} (hl : Word.Fits l) (h : foldSmiOp op l r = some z) :
    Execution.exactResult op l r = some z := by
  unfold foldSmiOp at h
  unfold Execution.exactResult
  split at h
  case h_6 =>
    show (if 0 ≤ r then some (l * 2 ^ r.toNat) else none) = some z
    split at h
    case isFalse => cases h
    case isTrue hr =>
      rw [Word.check, Option.ite_none_right_eq_some] at h
      rw [if_pos hr.1, ← h.2, Int.shiftLeft_eq]
  case h_7 =>
    show (if 0 ≤ r then some (l / 2 ^ r.toNat) else none) = some z
    split at h
    case isFalse => cases h
    case isTrue hr =>
      rw [if_pos hr, ← h]
      obtain hlt | hge := lt_or_ge r 63
      · rw [min_eq_left hlt.le, Int.shiftRight_eq_div_pow]
        norm_cast
      · rw [min_eq_right hge, ← shiftRight_of_fits hl hge]
        rfl
  all_goals simp_all [Word.add?, Word.sub?, Word.mul?, Word.check]

end Knowledge

namespace Constants

open Execution

/-! ## Execution -/

/-- What instructions do as far as constants depend on it. A small integer operation that overflows or divides by zero
leaves the method, and whatever is not mentioned may give any value. Phis take their values on edges only. -/
def exact (g : FlowGraph) : Meaning Unit where
  does σ _ i d result _ := d.isPhi = false ∧ ClassesRight g σ i d ∧
    match d with
    | .constant c => result = some (.constant c)
    | .pushArgument a => result = σ a
    | .constraint _ inputs => ∃ a, inputs[0]? = some a ∧ result = σ a
    | .compare c => ∃ outcome, Outcome c σ outcome ∧ result = some (.bool outcome)
    | .binaryOp .binarySmiOp op l r _ => ∀ x y, σ l = some (.smi x) → σ r = some (.smi y) →
        Word.Fits x ∧ ∃ z, exactResult op x y = some z ∧ Word.IsSmi z ∧ result = some (.smi z)
    | .unary .booleanNegate a => ∀ b, σ a = some (.bool b) → result = some (.bool !b)
    | .loadField _ _ .objectArrayLength _ a => ∀ n elements, g.nodes[a.index]? = some n →
        n.inst = .createArray elements → result = some (.smi elements.length)
    | _ => True
  goes σ _ d c := match d with
    | .branch cmp onTrue onFalse => ∃ outcome, Outcome cmp σ outcome ∧ c = if outcome then onTrue else onFalse
    | _ => True

/-- The inputs of the instruction have values, and these are covered. -/
def InputsCovered (f : Facts) (σ : Values) (d : Inst) : Prop :=
  ∀ a ∈ d.args, ∃ v, σ a = some v ∧ (f.value a).Covers v

variable {g : FlowGraph} {f : Facts} {σ : Values} {i : InstId} {d : Inst} {v : Value}

theorem eq_smi_of_covers {a a' : Constant} {m : Int} (h : (a' == a) = true) (hm : a.smi? = some m) :
    Value.constant a' = .smi m := by
  rw [← Constant.smi?_congr h] at hm
  cases a' <;> simp_all [Constant.smi?, Value.smi]

theorem covers_smiOp {op : Token} {x y : Knowledge} {l r : Value} (hl : x.Covers l) (hr : y.Covers r)
    (hresult : ∀ a b, l = .smi a → r = .smi b →
      Word.Fits a ∧ ∃ z, exactResult op a b = some z ∧ Word.IsSmi z ∧ v = .smi z) :
    ∃ k, Knowledge.smiOp op x y = some k ∧ k.Covers v := by
  match x, y with
  | .varying, _ => exact ⟨_, rfl, trivial⟩
  | .known a, .varying => exact ⟨_, rfl, trivial⟩
  | .known a, .known b =>
    obtain ⟨a', rfl, ha⟩ := Knowledge.covers_known.mp hl
    obtain ⟨b', rfl, hb⟩ := Knowledge.covers_known.mp hr
    simp only [Knowledge.smiOp]
    split
    case h_2 => exact ⟨_, rfl, trivial⟩
    case h_1 m n hm hn =>
      refine ⟨_, rfl, ?_⟩
      cases hfold : foldSmiOp op m n with
      | none => trivial
      | some w =>
        obtain ⟨hfits, z, hz, hsmi, rfl⟩ := hresult m n (eq_smi_of_covers ha hm) (eq_smi_of_covers hb hn)
        obtain rfl := Option.some_inj.mp (hz.symm.trans (Knowledge.exactResult_of_fold hfits hfold))
        show Knowledge.Covers (.known (.int z)) _
        rw [Constant.int, if_pos hsmi]
        exact Knowledge.Covers.constant _

theorem covers_negate {x : Knowledge} {a : Value} (h : x.Covers a)
    (hresult : ∀ b, a = .bool b → v = .bool !b) : ∃ k, x.negate = some k ∧ k.Covers v := by
  unfold Knowledge.negate
  split
  case h_1 b =>
    obtain ⟨c, rfl, hc⟩ := Knowledge.covers_known.mp h
    obtain rfl := Constant.eq_of_same_bool hc
    obtain rfl := hresult b rfl
    exact ⟨_, rfl, Knowledge.Covers.constant _⟩
  case h_2 => exact h.elim
  case h_3 => exact ⟨_, rfl, trivial⟩

theorem covers_compareOrdered {op : Token} {x y : Knowledge} {l r : Value} {outcome : Bool} (hl : x.Covers l)
    (hr : y.Covers r)
    (houtcome : ∀ a b answer, l.int? = some a → r.int? = some b → compareInts op a b = some answer → outcome = answer) :
    (Knowledge.compareOrdered op x y).Covers (.bool outcome) := by
  unfold Knowledge.compareOrdered
  split
  case h_1 a b =>
    obtain ⟨a', rfl, ha⟩ := Knowledge.covers_known.mp hl
    obtain ⟨b', rfl, hb⟩ := Knowledge.covers_known.mp hr
    split
    case h_2 => trivial
    case h_1 m n hm hn =>
      rw [← Constant.int?_congr ha] at hm
      rw [← Constant.int?_congr hb] at hn
      cases hanswer : compareInts op m n with
      | none => trivial
      | some answer =>
        obtain rfl := houtcome m n answer hm hn hanswer
        exact Knowledge.Covers.constant _
  case h_2 => exact hl.elim
  case h_3 => exact hr.elim
  case h_4 => trivial

theorem same_null_of_isOf {v : Value} {cls : ClassId} (h : v.isOf cls = true) :
    v.same (.constant .null) = (cls == .null) ∧ Value.same (.constant .null) v = (cls == .null) := by
  simp only [Value.isOf, Bool.and_eq_true, Bool.or_eq_true, beq_iff_eq, bne_iff_ne] at h
  obtain ⟨rfl, hnull⟩ := h
  cases v with
  | object identity cls =>
    have hne : (Value.object identity cls).classId ≠ .null := hnull.resolve_right (by simp [Value.isNull])
    rw [beq_eq_false_iff_ne.mpr hne]
    exact ⟨rfl, rfl⟩
  | constant c =>
    by_cases hc : c = .null
    · subst hc
      exact ⟨rfl, rfl⟩
    · have hne : (Value.constant c).classId ≠ .null :=
        hnull.resolve_right (by cases c <;> simp_all [Value.isNull, Constant.isNull])
      rw [beq_eq_false_iff_ne.mpr hne]
      refine ⟨Bool.eq_false_iff.mpr fun hsame => hc (Constant.eq_of_same_null hsame), Bool.eq_false_iff.mpr fun hsame =>
        ?_⟩
      exact hc (Constant.eq_of_same_null (Constant.same_symm hsame))

theorem covers_compareNull {k : Nat} {negate outcome : Bool} {x : Knowledge} {u : Value}
    (hclass : ∀ cls, g.useClass i k = .ok cls → cls ≠ .dynamic → cls ≠ .illegal → u.isOf cls = true)
    (houtcome : ∀ cls, u.isOf cls = true → outcome = ((cls == .null) != negate))
    (hrun : compareNull g i k negate = .ok x) : x.Covers (.bool outcome) := by
  unfold compareNull at hrun
  obtain ⟨cls, hcls, hrun₁⟩ := bind_eq_ok.mp hrun
  split at hrun₁
  · obtain rfl := pure_eq_ok.mp hrun₁
    trivial
  case isFalse hne =>
    simp only [Bool.or_eq_true, decide_eq_true_eq, not_or] at hne
    obtain rfl := pure_eq_ok.mp hrun₁
    rw [houtcome cls (hclass cls hcls hne.1 hne.2)]
    exact Knowledge.Covers.constant _

theorem covers_compareIdentity {negate : Bool} {x y k : Knowledge} {l r : Value} (hl : x.Covers l) (hr : y.Covers r)
    (hleft : ∀ cls, g.useClass i 0 = .ok cls → cls ≠ .dynamic → cls ≠ .illegal → l.isOf cls = true)
    (hright : ∀ cls, g.useClass i 1 = .ok cls → cls ≠ .dynamic → cls ≠ .illegal → r.isOf cls = true)
    (hrun : compareIdentity g i negate x y = .ok k) : k.Covers (.bool (l.same r != negate)) := by
  unfold compareIdentity at hrun
  split at hrun
  case h_1 a b =>
    obtain ⟨a', rfl, ha⟩ := Knowledge.covers_known.mp hl
    obtain ⟨b', rfl, hb⟩ := Knowledge.covers_known.mp hr
    obtain rfl := pure_eq_ok.mp hrun
    have hsame : Value.same (.constant a') (.constant b') = (a == b) := Constant.same_congr ha hb
    rw [hsame]
    exact Knowledge.Covers.constant _
  case h_2 =>
    obtain ⟨c, rfl, hc⟩ := Knowledge.covers_known.mp hl
    obtain rfl := Constant.eq_of_same_null hc
    exact covers_compareNull hright (fun cls hof => by rw [(same_null_of_isOf hof).2]) hrun
  case h_3 =>
    obtain ⟨c, rfl, hc⟩ := Knowledge.covers_known.mp hr
    obtain rfl := Constant.eq_of_same_null hc
    exact covers_compareNull hleft (fun cls hof => by rw [(same_null_of_isOf hof).1]) hrun
  case h_4 | h_5 =>
    obtain rfl := pure_eq_ok.mp hrun
    trivial
  case h_6 hvarying hvarying' hknown _ _ =>
    match x, y with
    | .unknown, _ => exact hl.elim
    | .known a, .unknown | .varying, .unknown => exact hr.elim
    | .varying, .known b | .varying, .varying => exact (hvarying rfl).elim
    | .known a, .varying => exact (hvarying' rfl).elim
    | .known a, .known b => exact (hknown a b rfl rfl).elim

theorem covers_compareValue {c : Comparison} {x : Knowledge} {outcome : Bool} (hargs : d.args = [c.left, c.right])
    (hcovered : InputsCovered f σ d) (hclasses : ClassesRight g σ i d) (houtcome : Outcome c σ outcome)
    (hrun : compareValue g f i c = .ok x) : x.Covers (.bool outcome) := by
  obtain ⟨l, hl, hlc⟩ := hcovered c.left (by simp [hargs])
  obtain ⟨r, hr, hrc⟩ := hcovered c.right (by simp [hargs])
  have hdecided := houtcome l r hl hr
  unfold compareValue at hrun
  dsimp only at hrun
  split at hrun
  case isTrue hkind =>
    rw [if_pos hkind] at hdecided
    rw [hdecided]
    exact covers_compareIdentity hlc hrc
      (fun cls hcls hd hi => hclasses 0 cls _ l hcls hd hi (by simp [hargs]) hl)
      (fun cls hcls hd hi => hclasses 1 cls _ r hcls hd hi (by simp [hargs]) hr) hrun
  case isFalse hkind =>
    rw [if_neg hkind] at hdecided
    obtain rfl := pure_eq_ok.mp hrun
    exact covers_compareOrdered hlc hrc hdecided

theorem covers_unevaluated (hcovered : InputsCovered f σ d) (hdef : d.isDefinition = true) :
    ∃ k, unevaluated f d = some k ∧ k.Covers v := by
  refine ⟨.varying, ?_, trivial⟩
  have hknown : (d.args.map f.value).any (· == .unknown) = false := by
    rw [List.any_eq_false]
    intro k hk hunknown
    obtain ⟨a, ha, rfl⟩ := List.mem_map.mp hk
    obtain ⟨v, -, hv⟩ := hcovered a ha
    exact Knowledge.below_of_same (Knowledge.same_symm hunknown) v hv
  simp [unevaluated, hdef, hknown]

theorem covers_transfer {r : Option Knowledge} (hcovered : InputsCovered f σ d) (hdef : d.isDefinition = true)
    (hdoes : (exact g).does σ () i d (some v) ()) (hrun : transfer g f i d = .ok r) : ∃ k, r = some k ∧ k.Covers v := by
  obtain ⟨hphi, hclasses, hdoes⟩ := hdoes
  unfold transfer at hrun
  split at hrun
  case h_1 c =>
    obtain rfl := pure_eq_ok.mp hrun
    obtain rfl := Option.some_inj.mp hdoes
    exact ⟨_, rfl, Knowledge.Covers.constant c⟩
  case h_2 =>
    obtain rfl := pure_eq_ok.mp hrun
    exact ⟨_, rfl, trivial⟩
  case h_3 a =>
    obtain rfl := pure_eq_ok.mp hrun
    obtain ⟨w, hw, hwc⟩ := hcovered a (by simp [Inst.args])
    obtain rfl := Option.some_inj.mp (hdoes.trans hw)
    exact ⟨_, rfl, hwc⟩
  case h_4 range inputs =>
    obtain ⟨a, ha, hrun₁⟩ := bind_eq_ok.mp hrun
    obtain rfl := pure_eq_ok.mp hrun₁
    obtain ⟨a', ha', hresult⟩ := hdoes
    obtain rfl := Option.some_inj.mp ((orFault_eq_ok.mp ha).symm.trans ha')
    obtain ⟨w, hw, hwc⟩ := hcovered a (List.mem_of_getElem? ha')
    obtain rfl := Option.some_inj.mp (hresult.trans hw)
    exact ⟨_, rfl, hwc⟩
  case h_5 c =>
    obtain ⟨x, hx, hrun₁⟩ := bind_eq_ok.mp hrun
    obtain rfl := pure_eq_ok.mp hrun₁
    obtain ⟨outcome, houtcome, hresult⟩ := hdoes
    obtain rfl := Option.some_inj.mp hresult
    exact ⟨_, rfl, covers_compareValue rfl hcovered hclasses houtcome hx⟩
  case h_6 op a b overflow =>
    obtain rfl := pure_eq_ok.mp hrun
    obtain ⟨l, hl, hlc⟩ := hcovered a (by simp [Inst.args])
    obtain ⟨r, hr, hrc⟩ := hcovered b (by simp [Inst.args])
    refine covers_smiOp hlc hrc fun x y hx hy => ?_
    subst hx hy
    simpa using hdoes x y hl hr
  case h_7 a =>
    obtain rfl := pure_eq_ok.mp hrun
    obtain ⟨w, hw, hwc⟩ := hcovered a (by simp [Inst.args])
    refine covers_negate hwc fun b hb => ?_
    subst hb
    exact Option.some_inj.mp (hdoes b hw)
  case h_8 a =>
    obtain ⟨e, he, hrun₁⟩ := bind_eq_ok.mp hrun
    obtain ⟨n, hn, rfl⟩ := FlowGraph.inst_eq_ok.mp he
    split at hrun₁
    case h_1 elements helements =>
      obtain rfl := pure_eq_ok.mp hrun₁
      obtain rfl := Option.some_inj.mp (hdoes n elements hn helements)
      exact ⟨_, rfl, Knowledge.Covers.constant _⟩
    case h_2 =>
      obtain rfl := pure_eq_ok.mp hrun₁
      exact ⟨_, rfl, trivial⟩
  case h_9 | h_10 =>
    obtain rfl := pure_eq_ok.mp hrun
    exact ⟨_, rfl, trivial⟩
  case h_11 =>
    obtain rfl := pure_eq_ok.mp hrun
    exact covers_unevaluated hcovered hdef

end Constants

end Midend

/-! ## Knowledge in order

The three levels of knowledge, and which operations keep their order: all of them do, but for identity with null where a
class decides it.
-/

namespace Midend.Knowledge

variable {x x' y y' z : Knowledge} {a b : Constant}

/-! ### The order -/

theorem beq_unknown_iff : (x == unknown) = true ↔ x = unknown := by
  cases x <;> simp [BEq.beq, same]

theorem beq_varying_iff : (x == varying) = true ↔ x = varying := by
  cases x <;> simp [BEq.beq, same]

theorem unknown_below (y : Knowledge) : Below unknown y := fun _ h => h.elim

theorem below_varying (x : Knowledge) : Below x varying := fun _ _ => trivial

theorem below_refl (x : Knowledge) : Below x x := fun _ h => h

theorem Below.trans (h : Below x y) (h' : Below y z) : Below x z := fun v hv => h' v (h v hv)

theorem known_below_known : Below (known a) (known b) ↔ (a == b) = true := by
  refine ⟨fun h => h _ (.constant a), fun h v hv => ?_⟩
  obtain ⟨c, rfl, hc⟩ := covers_known.mp hv
  exact Constant.same_trans hc h

theorem varying_below : Below varying y ↔ y = varying := by
  refine ⟨fun h => ?_, fun h => h ▸ below_refl varying⟩
  have hobject := h (.object 0 .null) trivial
  cases y with
  | unknown => exact hobject.elim
  | known c => simp [Covers, Value.same] at hobject
  | varying => rfl

theorem below_unknown : Below x unknown ↔ x = unknown := by
  refine ⟨fun h => ?_, fun h => h ▸ below_refl unknown⟩
  cases x with
  | unknown => rfl
  | known c => exact (h _ (.constant c)).elim
  | varying => exact (h (.constant .null) trivial).elim

/-- The three ways to be below. -/
theorem Below.cases (h : Below x y) :
    x = unknown ∨ y = varying ∨ ∃ a b, x = known a ∧ y = known b ∧ (a == b) = true := by
  cases x with
  | unknown => exact .inl rfl
  | varying => exact .inr (.inl (varying_below.mp h))
  | known a =>
    cases y with
    | unknown => cases below_unknown.mp h
    | known b => exact .inr (.inr ⟨a, b, rfl, rfl, known_below_known.mp h⟩)
    | varying => exact .inr (.inl rfl)

/-- How often what is known of a definition has risen. -/
def level : Knowledge → Nat
  | unknown => 0
  | known _ => 1
  | varying => 2

theorem level_le_two (x : Knowledge) : x.level ≤ 2 := by cases x <;> simp [level]

theorem level_lt_of_below (h : Below x y) (hne : ¬ (x == y) = true) : x.level < y.level := by
  obtain rfl | rfl | ⟨a, b, rfl, rfl, hab⟩ := h.cases
  · cases y with
    | unknown => exact absurd rfl hne
    | _ => simp [level]
  · cases x with
    | varying => exact absurd rfl hne
    | _ => simp [level]
  · exact absurd hab hne

theorem join_below (hx : Below x z) (hy : Below y z) : Below (x.join y) z := by
  match x, y with
  | unknown, _ => exact hy
  | known _, unknown | varying, unknown => exact hx
  | varying, known _ | varying, varying => exact hx
  | known _, varying => exact hy
  | known a, known b =>
    show Below (if a == b then known a else varying) z
    split
    case isTrue => exact hx
    case isFalse hne =>
      obtain h | rfl | ⟨c, d, hc, rfl, hcd⟩ := hx.cases
      · cases h
      · exact below_varying _
      · cases hc
        exact absurd (Constant.same_trans hcd (Constant.same_symm (known_below_known.mp hy))) hne

/-! ### Operations keep the order -/

theorem smiOp_mono {op : Token} (hx : Below x x') (hy : Below y y') :
    Below ((smiOp op x y).getD unknown) ((smiOp op x' y').getD unknown) := by
  obtain rfl | rfl | ⟨a, b, rfl, rfl, hab⟩ := hx.cases
  · cases y with
    | varying =>
      obtain rfl := varying_below.mp hy
      cases x' <;> exact below_varying _
    | _ => exact unknown_below _
  · exact below_varying _
  obtain rfl | rfl | ⟨c, d, rfl, rfl, hcd⟩ := hy.cases
  · exact unknown_below _
  · exact below_varying _
  · simp only [smiOp, Constant.smi?_congr hab, Constant.smi?_congr hcd]
    exact below_refl _

theorem negate_mono (hx : Below x x') : Below (x.negate.getD unknown) (x'.negate.getD unknown) := by
  obtain rfl | rfl | ⟨a, b, rfl, rfl, hab⟩ := hx.cases
  · exact unknown_below _
  · exact below_varying _
  · obtain rfl | ⟨i, as, bs, rfl, rfl⟩ := Constant.eq_of_same hab <;> exact below_refl _

theorem compareOrdered_mono {op : Token} (hx : Below x x') (hy : Below y y') :
    Below (compareOrdered op x y) (compareOrdered op x' y') := by
  obtain rfl | rfl | ⟨a, b, rfl, rfl, hab⟩ := hx.cases
  · cases y <;> exact unknown_below _
  · cases y with
    | unknown => cases x <;> exact unknown_below _
    | known c =>
      cases y' with
      | unknown => cases below_unknown.mp hy
      | _ => exact below_varying _
    | varying =>
      obtain rfl := varying_below.mp hy
      exact below_varying _
  obtain rfl | rfl | ⟨c, d, rfl, rfl, hcd⟩ := hy.cases
  · exact unknown_below _
  · exact below_varying _
  · simp only [compareOrdered, Constant.int?_congr hab, Constant.int?_congr hcd]
    exact below_refl _

def compareSame (negate : Bool) : Knowledge → Knowledge → Knowledge
  | known a, known b => bool ((a == b) != negate)
  | varying, _ | _, varying => varying
  | _, _ => unknown

theorem compareSame_mono {negate : Bool} (hx : Below x x') (hy : Below y y') :
    Below (compareSame negate x y) (compareSame negate x' y') := by
  obtain rfl | rfl | ⟨a, b, rfl, rfl, hab⟩ := hx.cases
  · cases y with
    | varying =>
      obtain rfl := varying_below.mp hy
      cases x' <;> exact below_varying _
    | _ => exact unknown_below _
  · exact below_varying _
  obtain rfl | rfl | ⟨c, d, rfl, rfl, hcd⟩ := hy.cases
  · exact unknown_below _
  · exact below_varying _
  · simp only [compareSame, Constant.same_congr (Constant.same_symm hab) (Constant.same_symm hcd)]
    exact below_refl _

end Midend.Knowledge
