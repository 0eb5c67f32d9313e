import Midend.Pipeline
import Midend.Proofs.Builder
import Midend.Proofs.Consistency
import Midend.Proofs.Graph.Layout
import Midend.Proofs.Reading
import Midend.Simplify

/-! # Operations on unboxed numbers that a constant decides

The operands of an operation on wide integers or doubles are unboxed in front of it, and that is where a value of
another class is noticed. An operation that gives way to one of its operands takes the test along. Which of these
replacements lose a test that could have failed follows from the rule that was applied.
-/

namespace Midend

namespace Simplify

variable {h : Hierarchy} {g : FlowGraph} {i l r d constant other : InstId} {op : Token} {doubles overflow : Bool}

/-! ## Unboxing -/

/-- A value of the class is brought into the representation. Any other value makes the code give up. -/
def unboxes : Representation → ClassId → Bool
  | .tagged, _ => true
  | .unboxedMint, c => c == .smi || c == .mint
  | .unboxedDouble, c => c == .smi || c == .double

/-- A value that was found to be of class `known` may be one of class `actual`. -/
def MayBe (known actual : ClassId) : Prop := known = .dynamic ∨ actual = known

/-- Input `k` of `i` is in the representation that `i` requires, or a value of class `cls` can be brought into it. -/
def Accepts (g : FlowGraph) (i : InstId) (k : Nat) (cls : ClassId) : Prop :=
  ∃ user a value, g.inst i = .ok user ∧ g.arg i k = .ok a ∧ g.inst a = .ok value ∧
    (value.representation = user.requiredRepresentation k ∨ unboxes (user.requiredRepresentation k) cls = true)

/-- The class of input `k` tells that it is accepted. -/
def Fits (g : FlowGraph) (i : InstId) (k : Nat) : Prop := ∃ known, g.useClass i k = .ok known ∧ Accepts g i k known

/-- Whatever classes the two operands turn out to have, the operation does not give up on them. -/
def NeverGivesUp (g : FlowGraph) (i : InstId) : Prop :=
  ∀ k < 2, ∃ known, g.useClass i k = .ok known ∧ ∀ actual, MayBe known actual → Accepts g i k actual

/-- The operation `op` on unboxed doubles, or else on unboxed integers. -/
def unboxedOp (doubles : Bool) (op : Token) (l r : InstId) (overflow : Bool) : Inst :=
  .binaryOp (if doubles then .binaryDoubleOp else .binaryMintOp) op l r overflow

def unboxedNumber (doubles : Bool) : Representation := if doubles then .unboxedDouble else .unboxedMint

theorem requiredRepresentation_unboxedOp (k : Nat) :
    (unboxedOp doubles op l r overflow).requiredRepresentation k = unboxedNumber doubles := by
  cases doubles <;> rfl

theorem unboxes_of_mayBe_iff {known : ClassId} :
    (∀ actual, MayBe known actual → unboxes (unboxedNumber doubles) actual = true) ↔
      unboxes (unboxedNumber doubles) known = true := by
  constructor
  · exact fun hall => hall known (.inr rfl)
  · rintro hknown actual (rfl | rfl)
    · cases doubles <;> cases hknown
    · exact hknown

theorem neverGivesUp_iff_fits (hi : g.inst i = .ok (unboxedOp doubles op l r overflow)) :
    NeverGivesUp g i ↔ Fits g i 0 ∧ Fits g i 1 := by
  have haccepts : ∀ k known, (∀ actual, MayBe known actual → Accepts g i k actual) ↔ Accepts g i k known := by
    intro k known
    constructor
    · exact fun hall => hall known (.inr rfl)
    · rintro ⟨user, a, value, hu, ha, hv, hfits⟩ actual hactual
      refine ⟨user, a, value, hu, ha, hv, hfits.imp_right fun hknown => ?_⟩
      obtain rfl : user = unboxedOp doubles op l r overflow := by simpa [hi] using hu.symm
      rw [requiredRepresentation_unboxedOp] at hknown ⊢
      exact unboxes_of_mayBe_iff.mpr hknown actual hactual
  simp only [NeverGivesUp, haccepts, Fits]
  constructor
  · exact fun hall => ⟨hall 0 (by decide), hall 1 (by decide)⟩
  · rintro ⟨h0, h1⟩ (_ | _ | k) hk
    · exact h0
    · exact h1
    · omega

/-! ## Rules -/

def Identity.keeps (constant other : InstId) : Identity → InstId
  | .constant => constant
  | .other | .otherDouble => other

/-- One operand is a constant for which there is a rule. Only the rule for products of doubles looks at the other
operand. -/
structure Decides (g : FlowGraph) (doubles : Bool) (op : Token) (constant other : InstId) (rule : Identity) :
    Prop where
  value : ∃ c v, g.constantOf constant = .ok (some c) ∧ integerValue? c = some v ∧ identity? doubles op v = some rule
  double : rule = .otherDouble → ∃ inst, g.inst other = .ok inst ∧ inst.representation = .unboxedDouble

theorem applyIdentity_eq_some_iff :
    applyIdentity g doubles op constant other = .ok (some d) ↔
      ∃ rule, Decides g doubles op constant other rule ∧ d = rule.keeps constant other := by
  simp only [applyIdentity, bind_eq_ok]
  constructor
  · rintro ⟨c, hc, hrun⟩
    have hvalue : ∀ rule, (c.bind integerValue?).bind (identity? doubles op) = some rule → ∃ c v,
        g.constantOf constant = .ok (some c) ∧ integerValue? c = some v ∧ identity? doubles op v = some rule := by
      intro rule hrule
      obtain ⟨v, hv, hidentity⟩ := Option.bind_eq_some_iff.mp hrule
      obtain ⟨c, rfl, hv⟩ := Option.bind_eq_some_iff.mp hv
      exact ⟨c, v, hc, hv, hidentity⟩
    split at hrun
    case h_1 hrule =>
      exact ⟨.constant, ⟨hvalue _ hrule, nofun⟩, by simpa [Identity.keeps, eq_comm] using pure_eq_ok.mp hrun⟩
    case h_2 hrule =>
      exact ⟨.other, ⟨hvalue _ hrule, nofun⟩, by simpa [Identity.keeps, eq_comm] using pure_eq_ok.mp hrun⟩
    case h_3 hrule =>
      obtain ⟨inst, hinst, hrun⟩ := bind_eq_ok.mp hrun
      rw [pure_eq_ok] at hrun
      split at hrun
      case isTrue hdouble =>
        exact ⟨.otherDouble, ⟨hvalue _ hrule, fun _ => ⟨inst, hinst, hdouble⟩⟩, by simpa
          [Identity.keeps, eq_comm] using hrun⟩
      case isFalse => cases hrun
    case h_4 => cases pure_eq_ok.mp hrun
  · rintro ⟨rule, ⟨⟨c, v, hc, hv, hidentity⟩, hdouble⟩, rfl⟩
    refine ⟨some c, hc, ?_⟩
    simp only [Option.bind_some, hv, hidentity]
    cases rule with
    | constant => rfl
    | other => rfl
    | otherDouble =>
      obtain ⟨inst, hinst, hrepresentation⟩ := hdouble rfl
      simp [hinst, hrepresentation, bind, Except.bind, pure, Except.pure, Identity.keeps]

theorem eq_otherDouble {v : Int} (hrule : identity? doubles op v = some .otherDouble) :
    doubles = true ∧ op = .mul := by
  unfold identity? at hrule
  split at hrule <;> (try split at hrule) <;> simp_all

/-- The operand at `k` of `l` and `r`: the left one for 0, the right one for 1. -/
def operandAt (l r : InstId) (k : Nat) : InstId := if k = 0 then l else r

theorem arg_unboxedOp (hi : g.inst i = .ok (unboxedOp doubles op l r overflow)) {k : Nat} (hk : k < 2) :
    g.arg i k = .ok (operandAt l r k) := by
  obtain ⟨n, hn, hinst⟩ := FlowGraph.inst_eq_ok.mp hi
  refine FlowGraph.arg_eq_ok.mpr ⟨n, hn, ?_⟩
  rw [hinst]
  match k, hk with
  | 0, _ => rfl
  | 1, _ => rfl

theorem exists_useClass {k : Nat} {a : InstId} (harg : g.arg i k = .ok a) (ha : a.index < g.nodes.size) :
    ∃ c, g.useClass i k = .ok c := by
  unfold FlowGraph.useClass
  cases g.reachingClass? ⟨i, k⟩ with
  | some c => exact ⟨c, rfl⟩
  | none =>
    have hnode : g.node a = .ok g.nodes[a.index] := FlowGraph.node_eq_ok.mpr (Array.getElem?_eq_getElem ha)
    simp [harg, FlowGraph.classOf, hnode, bind, Except.bind, pure, Except.pure]

/-- The operand at `k` decides the operation. The left one is asked first. -/
structure DecidedBy (g : FlowGraph) (doubles : Bool) (op : Token) (l r : InstId) (k : Nat) (rule : Identity) :
    Prop where
  operand : k = 0 ∨ (k = 1 ∧ applyIdentity g doubles op l r = .ok none)
  decides : Decides g doubles op (operandAt l r k) (operandAt l r (1 - k)) rule

theorem outcome?_eq_standIn_iff (hi : g.inst i = .ok (unboxedOp doubles op l r overflow)) :
    outcome? h g i = .ok (some (.standIn d)) ↔ ∃ k rule, DecidedBy g doubles op l r k rule ∧
      d = rule.keeps (operandAt l r k) (operandAt l r (1 - k)) := by
  have houtcome : outcome? h g i = simplifyBinaryOp g doubles i := by
    have hopcode : g.opcode i = .ok (unboxedOp doubles op l r overflow).opcode := by
      simp [FlowGraph.opcode, hi, bind, Except.bind, pure, Except.pure]
    cases doubles <;> simp [outcome?, hopcode, unboxedOp, Inst.opcode, bind, Except.bind]
  have hsides : outcome? h g i = .ok (some (.standIn d)) ↔ applyIdentity g doubles op l r = .ok (some d) ∨
      (applyIdentity g doubles op l r = .ok none ∧ applyIdentity g doubles op r l = .ok (some d)) := by
    rw [houtcome, simplifyBinaryOp, hi]
    simp only [unboxedOp, bind, Except.bind, pure, Except.pure]
    cases applyIdentity g doubles op l r with
    | error e => simp
    | ok known =>
      cases known with
      | none => cases applyIdentity g doubles op r l <;> simp
      | some d => simp
  rw [hsides]
  constructor
  · rintro (hleft | ⟨hnone, hright⟩)
    · obtain ⟨rule, hdecides, hd⟩ := applyIdentity_eq_some_iff.mp hleft
      exact ⟨0, rule, ⟨.inl rfl, hdecides⟩, hd⟩
    · obtain ⟨rule, hdecides, hd⟩ := applyIdentity_eq_some_iff.mp hright
      exact ⟨1, rule, ⟨.inr ⟨rfl, hnone⟩, hdecides⟩, hd⟩
  · rintro ⟨k, rule, ⟨rfl | ⟨rfl, hnone⟩, hdecides⟩, hd⟩
    · exact .inl (applyIdentity_eq_some_iff.mpr ⟨rule, hdecides, hd⟩)
    · exact .inr ⟨hnone, applyIdentity_eq_some_iff.mpr ⟨rule, hdecides, hd⟩⟩

/-- An operation that gives way to one of its operands does so on the word of the other one, a constant. No test
that could fail is lost with it if and only if the constant fits and the other operand does, which only the rule for
products of doubles makes sure of. -/
theorem replaced_never_gives_up_iff (hi : g.inst i = .ok (unboxedOp doubles op l r overflow))
    (hl : l.index < g.nodes.size) (hr : r.index < g.nodes.size) (hrun : outcome? h g i = .ok (some (.standIn d))) :
    ∃ k rule, DecidedBy g doubles op l r k rule ∧ d = rule.keeps (operandAt l r k) (operandAt l r (1 - k)) ∧
      (rule = .otherDouble → doubles = true ∧ op = .mul) ∧
      (NeverGivesUp g i ↔ Fits g i k ∧ (rule = .otherDouble ∨ Fits g i (1 - k))) := by
  obtain ⟨k, rule, hdecided, hd⟩ := (outcome?_eq_standIn_iff hi).mp hrun
  have hrule : rule = .otherDouble → doubles = true ∧ op = .mul := by
    rintro rfl
    obtain ⟨c, v, -, -, hidentity⟩ := hdecided.decides.value
    exact eq_otherDouble hidentity
  refine ⟨k, rule, hdecided, hd, hrule, ?_⟩
  have hother : rule = .otherDouble → Fits g i (1 - k) := by
    rintro rfl
    obtain ⟨value, hvalue, hrepresentation⟩ := hdecided.decides.double rfl
    have harg := arg_unboxedOp hi (show 1 - k < 2 by omega)
    obtain ⟨c, hc⟩ := exists_useClass harg (by unfold operandAt; split <;> assumption)
    refine ⟨c, hc, _, _, value, hi, harg, hvalue, .inl ?_⟩
    rw [hrepresentation, requiredRepresentation_unboxedOp, (hrule rfl).1]
    rfl
  rw [neverGivesUp_iff_fits hi]
  obtain rfl | ⟨rfl, -⟩ := hdecided.operand <;> tauto

/-! ## A sum with zero -/

/-- Adds zero to a parameter that was a wide integer so far, and returns the sum. -/
def plusZero : List Command :=
  [.inst (.loadLocal 0), .inst (.constant (.smi 0)),
    .instanceCall "+" .add [⟨0⟩, ⟨1⟩] 2 (some { selector := "+", tested := 2, checks := [⟨[.mint, .smi], ⟨13⟩, 1⟩] }),
    .inst (.unary .ret ⟨4⟩)]

/-- What construction and two stages make of the sum: an operation on wide integers, instruction 8, and then the
parameter itself, instruction 7. -/
structure PlusZeroRun (r g g' : FlowGraph) : Prop where
  built : ∃ b, Built b r ∧ Command.script plusZero FlowGraph.normalEntry (FlowGraph.new "f" 1 0) = some (b, r)
  specialized : ∃ s, Ssa.construct.run r = .ok (.ok (), s) ∧ ∃ b, (Stage.specialize.run {}).run s = .ok (b, g)
  clean : g.Consistent
  op : g.inst ⟨8⟩ = .ok (unboxedOp false .add ⟨7⟩ ⟨1⟩ true)
  size : g.nodes.size = 9
  parameter : g.inst ⟨7⟩ = .ok (.parameter 0)
  unknown : g.useClass ⟨8⟩ 0 = .ok .dynamic
  decided : outcome? .core g ⟨8⟩ = .ok (some (.standIn ⟨7⟩))
  run : ∃ b, (Stage.simplify.run {}).run g = .ok (b, g')
  gone : g'.isPlaced ⟨8⟩ = false
  kept : g'.args ⟨5⟩ = .ok [⟨7⟩]

def plusZeroHolds (r : FlowGraph) : Bool :=
  match Ssa.construct.run r with
  | .ok (.ok (), s) =>
    match (Stage.specialize.run {}).run s with
    | .ok (_, g) =>
      match g.inst ⟨8⟩, g.inst ⟨7⟩, outcome? .core g ⟨8⟩, (Stage.simplify.run {}).run g with
      | .ok (.binaryOp .binaryMintOp .add l r true), .ok (.parameter 0), .ok (some (.standIn d)), .ok (_, g') =>
        d == ⟨7⟩ && l == ⟨7⟩ && r == ⟨1⟩ && g.check.toOption == some [] && g.nodes.size == 9 &&
          (g.useClass ⟨8⟩ 0).toOption == some .dynamic && !g'.isPlaced ⟨8⟩ && (g'.args ⟨5⟩).toOption == some [⟨7⟩]
      | _, _, _, _ => false
    | _ => false
  | _ => false

theorem exists_plusZeroRun : ∃ r g g', PlusZeroRun r g g' := by
  have hcompute : ((Command.script plusZero FlowGraph.normalEntry (FlowGraph.new "f" 1 0)).map
      (plusZeroHolds ·.2)) = some true := by decide +kernel
  obtain ⟨⟨b₀, r⟩, hscript, hholds⟩ := Option.map_eq_some_iff.mp hcompute
  have hstart : Built FlowGraph.normalEntry (FlowGraph.new "f" 1 0) := @Built.start "f" 1 0 none (by decide)
  unfold plusZeroHolds at hholds
  split at hholds
  case h_2 => cases hholds
  case h_1 s hs =>
    split at hholds
    case h_2 => cases hholds
    case h_1 b g hg =>
      split at hholds
      case h_2 => cases hholds
      case h_1 l r' d b' g' hop hparameter hdecided hrun =>
        simp only [Bool.and_eq_true, beq_iff_eq, Bool.not_eq_true', toOption_eq_some_iff] at hholds
        obtain ⟨⟨⟨⟨⟨⟨⟨rfl, rfl⟩, rfl⟩, hclean⟩, hsize⟩, hunknown⟩, hgone⟩, hkept⟩ := hholds
        exact ⟨r, g, g', ⟨b₀, hstart.script hscript, hscript⟩, ⟨s, hs, b, hg⟩,
          hclean, hop, hsize, hparameter, hunknown, hdecided, ⟨b', hrun⟩, hgone, hkept⟩

theorem PlusZeroRun.not_fits {r g g' : FlowGraph} (hplus : PlusZeroRun r g g') : ¬ Fits g ⟨8⟩ 0 := by
  rintro ⟨known, hknown, user, a, value, huser, ha, hvalue, hfits⟩
  rw [hplus.op, Except.ok.injEq] at huser
  rw [arg_unboxedOp hplus.op (by decide), Except.ok.injEq] at ha
  obtain rfl : known = .dynamic := by simpa [hplus.unknown] using hknown.symm
  subst huser ha
  obtain rfl : value = .parameter 0 := by simpa [operandAt, hplus.parameter] using hvalue.symm
  revert hfits
  decide

/-- The sum gives way to the parameter, although that may be no number at all. -/
theorem plusZero_loses_test : ∃ r g g', PlusZeroRun r g g' ∧
    outcome? .core g ⟨8⟩ = .ok (some (.standIn ⟨7⟩)) ∧ ¬ (Fits g ⟨8⟩ 0 ∧ Fits g ⟨8⟩ 1) := by
  obtain ⟨r, g, g', hplus⟩ := exists_plusZeroRun
  exact ⟨r, g, g', hplus, hplus.decided, fun hfits => hplus.not_fits hfits.1⟩

theorem plusZero_gives_up : ∃ r g g', PlusZeroRun r g g' ∧ ¬ NeverGivesUp g ⟨8⟩ ∧ ∃ k rule,
    DecidedBy g false .add ⟨7⟩ ⟨1⟩ k rule ∧ rule ≠ .otherDouble ∧ ¬ (Fits g ⟨8⟩ k ∧ Fits g ⟨8⟩ (1 - k)) := by
  obtain ⟨r, g, g', hplus⟩ := exists_plusZeroRun
  obtain ⟨k, rule, hdecided, -, hrule, hiff⟩ := replaced_never_gives_up_iff hplus.op (by simp [hplus.size])
    (by simp [hplus.size]) hplus.decided
  have hnot : rule ≠ .otherDouble := fun h => by simpa using (hrule h).1
  have hnever : ¬ NeverGivesUp g ⟨8⟩ := fun h => hplus.not_fits ((neverGivesUp_iff_fits hplus.op).mp h).1
  exact ⟨r, g, g', hplus, hnever, k, rule, hdecided, hnot, fun h => hnever (hiff.mpr ⟨h.1, .inr h.2⟩)⟩

end Simplify

end Midend

/-! ## Branches that test a comparison

A branch on `e === true` tests `e` itself if `e` is a boolean. Where `e` is a comparison that nothing else looks at, the
branch can make the comparison, as long as a comparison that may call out does not move across anything that writes
memory or gives up.
-/

namespace Midend.Simplify

open FlowGraph

variable {g : FlowGraph} {branch compare first last i d : InstId} {c tested : Comparison}

/-- The instruction compares a boolean with `true`. -/
structure Tests (g : FlowGraph) (i : InstId) (tested : Comparison) : Prop where
  comparison : ∃ n, g.nodes[i.index]? = some n ∧ n.inst.comparison? = some tested
  kind : tested.kind = .strict
  op : tested.op = .eqStrict
  right : ∃ n, g.nodes[tested.right.index]? = some n ∧ n.inst = .constant (.bool true)
  cls : g.useClass i 0 = .ok .bool

theorem constantOf_eq_some {k : Constant} (h : g.constantOf d = .ok (some k)) :
    ∃ n, g.nodes[d.index]? = some n ∧ n.inst = .constant k := by
  obtain ⟨e, he, h⟩ := bind_eq_ok.mp h
  obtain ⟨n, hn, rfl⟩ := inst_eq_ok.mp he
  refine ⟨n, hn, ?_⟩
  have h := pure_eq_ok.mp h
  unfold Inst.constant? at h
  split at h
  case h_1 heq => rw [heq, Option.some_inj.mp h]
  case h_2 => cases h

theorem eq_true_of_same {k : Option Constant} (h : (k == some (.bool true)) = true) : k = some (.bool true) := by
  cases k with
  | none => cases h
  | some k => cases k <;> first | cases h | exact congrArg (fun b => some (Constant.bool b)) (eq_of_beq h)

theorem tests_of_testedBoolean? (h : testedBoolean? g i = .ok (some d)) : ∃ tested, Tests g i tested ∧
    tested.left = d := by
  obtain ⟨e, he, h⟩ := bind_eq_ok.mp h
  obtain ⟨n, hn, rfl⟩ := inst_eq_ok.mp he
  split at h
  case h_1 => cases pure_eq_ok.mp h
  case h_2 tested htested =>
    simp only [ite_eq_ok, bind_eq_ok, pure_eq_ok, reduceCtorEq, and_false, false_or] at h
    obtain ⟨hform, k, hk, htrue, cls, hcls, h⟩ := h
    simp only [Bool.or_eq_true, decide_eq_true_eq, not_or, not_not] at hform
    obtain rfl : k = some (.bool true) := eq_true_of_same (by simpa [bne] using htrue)
    split at h
    case isFalse => cases h
    case isTrue hbool =>
      subst hbool
      exact ⟨tested, ⟨⟨n, hn, htested⟩, hform.1, hform.2, constantOf_eq_some hk, hcls⟩, Option.some_inj.mp h⟩

/-- The instruction neither writes memory nor gives up. -/
def Inert (g : FlowGraph) (i : InstId) : Prop :=
  ∃ n, g.nodes[i.index]? = some n ∧ n.inst.hasSideEffect = false ∧ n.inst.canDeoptimize = false

/-- `last` is behind `first` in the same block, and what is between them is inert. -/
theorem inert_of_onlyPureBetween (hsound : g.layout.Sound) (h : onlyPureBetween g first last = .ok true) :
    ∃ b front between back, g.insts b = front ++ first :: (between ++ last :: back) ∧ ∀ i ∈ between, Inert g i := by
  unfold onlyPureBetween at h
  simp only [bind_eq_ok, ite_eq_ok, pure_eq_ok, Bool.false_eq_true, and_false, false_or, not_not] at h
  obtain ⟨behind, hbehind, hlast, hall⟩ := h
  obtain ⟨b, front, hsplit⟩ := hsound.after_eq_ok.mp hbehind
  obtain ⟨between, back, rfl, hnot⟩ := List.eq_append_cons_of_mem hlast
  refine ⟨b, front, between, back, hsplit, fun i hi => ?_⟩
  have hne : ∀ x ∈ between, (x != last) = true := fun x hx => bne_iff_ne.mpr fun h => hnot (h ▸ hx)
  have hinert := allM_eq_true hall i (by
    rw [List.takeWhile_append_of_pos hne]
    exact List.mem_append_left _ hi)
  simp only [bind_eq_ok, inst_eq_ok, pure_eq_ok, Bool.and_eq_true, Bool.not_eq_true'] at hinert
  obtain ⟨_, ⟨n, hn, rfl⟩, heffect, hdeopt⟩ := hinert
  exact ⟨n, hn, heffect, hdeopt⟩

/-- The branch tests a comparison that nothing else looks at, and the comparison may move to the branch. -/
structure Mergeable (g : FlowGraph) (branch : InstId) (tested c : Comparison) : Prop where
  tests : Tests g branch tested
  comparison : ∃ n, g.nodes[tested.left.index]? = some n ∧ n.inst = .compare c ∧ n.inputUses = [⟨branch, 0⟩] ∧
    n.envUses = []
  inert : c.isGeneric = true → onlyPureBetween g tested.left branch = .ok true

theorem mergeable_of_mergeable? (h : mergeable? g branch = .ok (some (compare, c))) :
    ∃ tested, Mergeable g branch tested c ∧ tested.left = compare := by
  obtain ⟨d, hd, h⟩ := bind_eq_ok.mp h
  cases d with
  | none => cases pure_eq_ok.mp h
  | some d =>
    obtain ⟨tested, htests, rfl⟩ := tests_of_testedBoolean? hd
    obtain ⟨e, he, h⟩ := bind_eq_ok.mp h
    obtain ⟨n, hn, rfl⟩ := inst_eq_ok.mp he
    split at h
    case h_2 => cases pure_eq_ok.mp h
    case h_1 c' hc =>
      simp only [bind_eq_ok, ite_eq_ok, pure_eq_ok, inputUses_eq_ok, envUses_eq_ok, hn, Option.some_inj,
        exists_eq_left', reduceCtorEq, and_false, false_or, ne_eq, not_not, Bool.not_eq_true', Bool.not_eq_false,
        List.isEmpty_iff] at h
      obtain ⟨hinputs, henvs, h⟩ := h
      suffices hsame : (tested.left, c') = (compare, c) ∧
          (c'.isGeneric = true → onlyPureBetween g tested.left branch = .ok true) by
        obtain ⟨heq, hinert⟩ := hsame
        obtain ⟨rfl, rfl⟩ := Prod.mk.inj heq
        exact ⟨tested, ⟨htests, ⟨n, hn, hc, hinputs, henvs⟩, hinert⟩, rfl⟩
      obtain ⟨hspecific, heq⟩ | ⟨-, r, hr, heq⟩ := h
      · exact ⟨heq, fun hgeneric => by simp [hspecific] at hgeneric⟩
      · split at heq
        case isTrue htrue => exact ⟨Option.some_inj.mp heq, fun _ => htrue ▸ hr⟩
        case isFalse => cases heq

end Midend.Simplify
