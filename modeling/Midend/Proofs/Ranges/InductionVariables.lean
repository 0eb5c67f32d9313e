import Midend.Flow.Loops
import Midend.Proofs.Builder
import Midend.Proofs.Execution.Origins
import Midend.Proofs.Execution.Runs
import Midend.Proofs.Ranges.Following
import Midend.Ssa

/-! # Induction variables stay in their ranges

Where operations on small integers leave the method when they overflow, whatever was gone through to find an induction
variable only moves away from the initial value in one direction. The boundary of its range is the value that the
initial definition has now: the initial definition is not evaluated again as long as the variable is in scope.
-/

namespace Midend.Ranges

open Execution FlowGraph Ssa

variable {M : Type} {m : Meaning M} {g : FlowGraph} {ν : InstId → Int} {P : InstId → Prop} {s : State M} {σ : Values}
  {header : BlockId} {d e i phi initial : InstId} {v : Induction} {way stride : Direction} {range : Range} {x y z : Int}
  {w u : Value}

/-! ## Directions -/

def Direction.Goes : Direction → Int → Int → Prop
  | .unknown, x, y => x = y
  | .positive, x, y => x ≤ y
  | .negative, x, y => y ≤ x
  | .both, _, _ => True

theorem Direction.Goes.refl (d : Direction) (x : Int) : d.Goes x x := by
  cases d <;> simp [Goes]

theorem Direction.Goes.inverted (h : way.Goes 0 z) : way.inverted.Goes 0 (-z) := by
  cases way <;> simp only [Goes, Direction.inverted] at h ⊢ <;> omega

theorem Direction.Goes.add (h : way.Goes x y) (hcovers : way.Covers stride) (hstep : stride.Goes 0 z) :
    way.Goes x (y + z) := by
  obtain rfl | rfl := hcovers
  · cases way <;> simp only [Goes] at h hstep ⊢ <;> omega
  · trivial

theorem sign_of_direction (h : RespectsOn g ν P) (hd : P d) (hconstant : ∀ c, g.smiConstantOf d = .ok (some c) →
    ν d = c) (hrun : direction g d = .ok way) (hne : way ≠ .unknown) : way.Goes 0 (ν d) := by
  unfold direction at hrun
  obtain ⟨c, hc, hrun⟩ := bind_eq_ok.mp hrun
  cases c with
  | some c =>
    obtain rfl := pure_eq_ok.mp hrun
    rw [hconstant c hc]
    split <;> simp only [Direction.Goes] <;> omega
  | none =>
    obtain ⟨range, hrange, hrun⟩ := bind_eq_ok.mp hrun
    cases range with
    | none => exact absurd (pure_eq_ok.mp hrun).symm hne
    | some r =>
      have hholds (s : Side) {b : Boundary} (hb : outermost g s (some r) = .ok b) : s.Holds ν b (ν d) :=
        holds_resolve_of_within h (h.smi d hd) (h.ranges d hd r hrange s).1 (h.ranges d hd r hrange s).2 hb
      obtain ⟨_, hlo, hrun₁⟩ := bind_eq_ok.mp hrun
      obtain ⟨lo, hvalue, hrun₂⟩ := bind_eq_ok.mp hrun₁
      obtain rfl := value_eq_ok.mp hvalue
      split at hrun₂
      case isTrue hpos =>
        obtain rfl := pure_eq_ok.mp hrun₂
        exact Int.le_trans hpos (hholds .lower hlo)
      case isFalse =>
        obtain ⟨_, hhi, hrun₃⟩ := bind_eq_ok.mp hrun₂
        obtain ⟨hi, hvalue, hrun₄⟩ := bind_eq_ok.mp hrun₃
        obtain rfl := value_eq_ok.mp hvalue
        split at hrun₄
        case isTrue hneg =>
          obtain rfl := pure_eq_ok.mp hrun₄
          exact Int.le_trans (hholds .upper hhi) hneg
        case isFalse => exact absurd (pure_eq_ok.mp hrun₄).symm hne

/-! ## What is relied on -/

/-- Constants have their values, constraints pass theirs on, and operations on small integers are exact: those that
overflow leave the method. -/
structure Computes (m : Meaning M) : Prop where
  constants : ∀ σ μ i c r μ', m.does σ μ i (.constant c) r μ' → r = some (.constant c)
  constraints : ∀ σ μ i range inputs a r μ', m.does σ μ i (.constraint range inputs) r μ' → itemAt inputs 0 = .ok a →
    r = σ a
  operations : ∀ σ μ i op l r overflow result μ', m.does σ μ i (.binaryOp .binarySmiOp op l r overflow) result μ' →
    ∃ x y z, σ l = some (.smi x) ∧ Word.IsSmi x ∧ σ r = some (.smi y) ∧ Word.IsSmi y ∧ exactResult op x y = some z ∧
      Word.IsSmi z ∧ result = some (.smi z)

/-- If `d` is a small integer now, it lies in the range recorded for it, and so do all symbols that this leads to. What
has no value yet may have any. -/
def RangeHolds (g : FlowGraph) (σ : Values) (d : InstId) : Prop :=
  ∀ y, σ d = some (.smi y) → Word.IsSmi y → ∃ (ν : InstId → Int) (P : InstId → Prop), P d ∧ RespectsOn g ν P ∧
    ∀ e, P e → ∀ v, σ e = some v → v = .smi (ν e)

/-- Wherever executions come to a step, the range recorded for its size holds. -/
def StepsHold (g : FlowGraph) (m : Meaning M) : Prop :=
  ∀ (s : State M) i rest n base size way, Reaches g m s → s.rest = i :: rest → g.nodes[i.index]? = some n →
    Moves g n.inst base size way → RangeHolds g s.values size

theorem Value.smi_inj : Value.smi x = Value.smi y ↔ x = y := by simp [Value.smi]

theorem eq_smi_of_bind {o : Option Value} (h : o.bind Value.smi? = some x) : o = some (.smi x) := by
  obtain ⟨v, rfl, hv⟩ := Option.bind_eq_some_iff.mp h
  cases v with
  | object => cases hv
  | constant c =>
    cases c with
    | smi y =>
      obtain rfl : y = x := Option.some_inj.mp hv
      rfl
    | _ => cases hv

theorem value_of_constant (hm : Computes m) (hs : Reaches g m s) {n : Node} {c : Constant}
    (hn : g.nodes[d.index]? = some n) (hc : n.inst = .constant c) (hw : s.values d = some w) :
    w = .constant c := by
  have hlive (b : BlockId) : ¬ LivePhi g b d := by
    intro hphi
    obtain ⟨n', hn', halive⟩ := Definite.exists_alive hphi
    obtain rfl := Option.some_inj.mp (hn.symm.trans hn')
    rw [hc] at halive
    cases halive
  refine hs.induction (fun s => s.values d = some w → w = .constant c) (fun s hs hw => ?_)
    (fun s s' _ ih hstep hw => ?_) hw
  · by_cases hd : d ∈ g.initialDefinitions
    · obtain ⟨n', v, hn', hv, hconstant⟩ := hs.initial d hd
      obtain rfl := Option.some_inj.mp (hn.symm.trans hn')
      obtain rfl := Option.some_inj.mp (hw.symm.trans hv)
      exact hconstant c hc
    · rw [hs.others d hd] at hw
      cases hw
  · cases hstep with
    | @define b i rest σ μ μ' l v hl hdef hargs hdoes =>
      by_cases hdi : d = i
      · subst hdi
        obtain rfl := Option.some_inj.mp (hn.symm.trans hl)
        rw [hc] at hdoes
        obtain rfl : v = w := by simpa using hw
        exact Option.some_inj.mp (hm.constants _ _ _ _ _ _ hdoes)
      · exact ih ((Function.update_of_ne hdi ..).symm.trans hw)
    | pass => exact ih hw
    | jump _ _ _ _ _ _ hcross =>
      obtain ⟨k, -, hvalues⟩ := hcross
      exact ih (((hvalues d).2 (hlive _)).symm.trans hw)
    | begin _ hcross =>
      obtain ⟨k, -, hvalues⟩ := hcross
      exact ih (((hvalues d).2 (hlive _)).symm.trans hw)

theorem smi_of_constant (hm : Computes m) (hs : Reaches g m s) {c : Int} (hc : g.smiConstantOf d = .ok (some c))
    (hw : s.values d = some w) : w = .smi c := by
  obtain ⟨constant, hconstant, hc⟩ := bind_eq_ok.mp hc
  obtain ⟨i, hi, hconstant⟩ := bind_eq_ok.mp hconstant
  obtain ⟨n, hn, rfl⟩ := inst_eq_ok.mp hi
  obtain rfl := pure_eq_ok.mp hconstant
  have hc := pure_eq_ok.mp hc
  cases hinst : n.inst with
  | constant value =>
    rw [hinst] at hc
    cases value with
    | smi x =>
      obtain rfl : x = c := Option.some_inj.mp hc
      exact value_of_constant hm hs hn hinst hw
    | _ => cases hc
  | _ =>
    rw [hinst] at hc
    cases hc

/-! ## The definitions that were gone through -/

theorem unwrapWithin_succ {n : Nat} {j : Inst} (h : unwrapWithin g n d = .ok e) (he : g.inst e = .ok j)
    (hno : ∀ range inputs, j ≠ .constraint range inputs) : unwrapWithin g (n + 1) d = .ok e := by
  induction n generalizing d with
  | zero =>
    obtain rfl := pure_eq_ok.mp h
    unfold unwrapWithin
    rw [he]
    cases j with
    | constraint range inputs => exact absurd rfl (hno range inputs)
    | _ => rfl
  | succ n ih =>
    unfold unwrapWithin at h ⊢
    obtain ⟨k, hk, h⟩ := bind_eq_ok.mp h
    refine bind_eq_ok.mpr ⟨k, hk, ?_⟩
    cases k with
    | constraint range inputs =>
      obtain ⟨a, ha, h⟩ := bind_eq_ok.mp h
      exact bind_eq_ok.mpr ⟨a, ha, ih h⟩
    | _ => exact h

theorem Moves.eq_binaryOp {base size : InstId} {k : Inst} (h : Moves g k base size way) :
    ∃ op l r overflow, k = .binaryOp .binarySmiOp op l r overflow ∧ base ∈ k.args := by
  cases h with
  | right => exact ⟨_, _, _, _, rfl, by simp [Inst.args]⟩
  | left => exact ⟨_, _, _, _, rfl, by simp [Inst.args]⟩
  | back => exact ⟨_, _, _, _, rfl, by simp [Inst.args]⟩

theorem Induction.Sees.cases (hall : ∀ d ∈ v.seen, v.Explains g header d) (hinitial : v.initial = some initial)
    (h : v.Sees g d) {k : Inst} (hk : g.inst d = .ok k) :
    (∃ range inputs a, k = .constraint range inputs ∧ itemAt inputs 0 = .ok a ∧ v.Sees g a) ∨
    (∃ slot inputs alive representation, k = .phi slot inputs alive representation ∧
      ∀ a ∈ inputs, a = initial ∨ Induction.Inside g header a ∧ v.Sees g a) ∨
    ∃ base size way, Moves g k base size way ∧ v.direction.Covers way ∧ v.Sees g base := by
  obtain ⟨e, he, hmem⟩ := h
  obtain ⟨j, hj, hexplained⟩ := hall e hmem
  have hno (range : Range) (inputs : List InstId) : j ≠ .constraint range inputs := by
    rintro rfl
    obtain ⟨_, _, _, _, hphi, -⟩ | ⟨_, _, _, hmoves, -⟩ := hexplained
    · cases hphi
    · obtain ⟨_, _, _, _, heq, -⟩ := hmoves.eq_binaryOp
      cases heq
  have hstep : unwrapWithin g (63 + 1) d = .ok e := he
  unfold unwrapWithin at hstep
  obtain ⟨k', hk', hstep⟩ := bind_eq_ok.mp hstep
  obtain rfl := Except.ok.inj (hk.symm.trans hk')
  by_cases hconstraint : ∃ range inputs, k = .constraint range inputs
  · obtain ⟨range, inputs, rfl⟩ := hconstraint
    obtain ⟨a, ha, hstep⟩ := bind_eq_ok.mp hstep
    exact .inl ⟨range, inputs, a, rfl, ha, e, unwrapWithin_succ hstep hj hno, hmem⟩
  · have hde : d = e := by
      cases k with
      | constraint range inputs => exact absurd ⟨range, inputs, rfl⟩ hconstraint
      | _ => exact pure_eq_ok.mp hstep
    subst hde
    obtain rfl := Except.ok.inj (hk.symm.trans hj)
    right
    obtain ⟨slot, inputs, alive, representation, hphi, haccepts⟩ | hmoves := hexplained
    · refine .inl ⟨slot, inputs, alive, representation, hphi, fun a ha => (haccepts a ha).imp_left fun h => ?_⟩
      exact Option.some_inj.mp (h.symm.trans hinitial)
    · exact .inr hmoves

theorem drawnFrom_initial (hg : Definite g) (hall : ∀ d ∈ v.seen, v.Explains g header d)
    (hinitial : v.initial = some initial) : DrawnFrom g initial {d | v.Sees g d} where
  not_initial d hd hmem := by
    obtain ⟨n, hn, hgiven, -⟩ := hg.initial d hmem
    obtain ⟨_, _, _, heq, -⟩ | ⟨_, _, _, _, heq, -⟩ | ⟨_, _, _, hmoves, -⟩ :=
      hd.cases hall hinitial (inst_eq_ok.mpr ⟨n, hn, rfl⟩)
    · rw [heq] at hgiven
      cases hgiven
    · rw [heq] at hgiven
      cases hgiven
    · obtain ⟨_, _, _, _, heq, -⟩ := hmoves.eq_binaryOp
      rw [heq] at hgiven
      cases hgiven
  inputs d hd b hmem n hn := by
    obtain ⟨_, _, a, heq, ha, hsees⟩ | ⟨_, _, _, _, heq, -⟩ | ⟨base, _, _, hmoves, -, hsees⟩ :=
      hd.cases hall hinitial (inst_eq_ok.mpr ⟨n, hn, rfl⟩)
    · rw [heq]
      exact ⟨rfl, a, List.mem_of_getElem? (orFault_eq_ok.mp ha), hsees⟩
    · exact absurd (by rw [heq]; rfl) (hg.phisApart.opcode_ne_phi hg.located hmem hn)
    · obtain ⟨_, _, _, _, heq, hbase⟩ := hmoves.eq_binaryOp
      exact ⟨by rw [heq]; rfl, base, hbase, hsees⟩
  phis d hd b hlive n hn := by
    obtain ⟨-, -, hphi⟩ := live_iff.mp hlive
    obtain ⟨n', hn', halive⟩ := Definite.exists_alive hphi
    obtain rfl := Option.some_inj.mp (hn.symm.trans hn')
    obtain ⟨_, _, _, heq, -⟩ | ⟨_, _, _, _, heq, hall⟩ | ⟨_, _, _, hmoves, -⟩ :=
      hd.cases hall hinitial (inst_eq_ok.mpr ⟨n, hn, rfl⟩)
    · rw [heq] at halive
      cases halive
    · rw [heq]
      exact fun a ha => (hall a ha).imp_right And.right
    · obtain ⟨_, _, _, _, heq, -⟩ := hmoves.eq_binaryOp
      rw [heq] at halive
      cases halive

theorem initial_or_inside (hall : ∀ d ∈ v.seen, v.Explains g header d) (hinitial : v.initial = some initial)
    (hsees : v.Sees g phi) {n : Node} (hn : g.nodes[phi.index]? = some n) (halive : n.inst.isAlivePhi = true)
    {a : InstId} (ha : a ∈ n.inst.args) : a = initial ∨ Induction.Inside g header a := by
  obtain ⟨_, _, _, heq, -⟩ | ⟨_, _, _, _, heq, hinputs⟩ | ⟨_, _, _, hmoves, -⟩ :=
    hsees.cases hall hinitial (inst_eq_ok.mpr ⟨n, hn, rfl⟩)
  · rw [heq] at halive
    cases halive
  · rw [heq] at ha
    exact (hinputs a ha).imp_right And.left
  · obtain ⟨_, _, _, _, heq, -⟩ := hmoves.eq_binaryOp
    rw [heq] at halive
    cases halive

/-! ## Values -/

/-- The value has stayed as it was, or has moved in the direction from one small integer to another. -/
def Moved (way : Direction) (w v : Value) : Prop :=
  v = w ∨ ∃ x y, w = .smi x ∧ Word.IsSmi x ∧ v = .smi y ∧ Word.IsSmi y ∧ way.Goes x y

theorem Moved.step (h : Moved way w (.smi y)) (hcovers : way.Covers stride) (hstep : stride.Goes 0 z)
    (hy : Word.IsSmi y) (hsum : Word.IsSmi (y + z)) : Moved way w (.smi (y + z)) := by
  obtain rfl | ⟨x, y', rfl, hx, heq, -, hgoes⟩ := h
  · exact .inr ⟨y, y + z, rfl, hy, rfl, hsum, (Direction.Goes.refl way y).add hcovers hstep⟩
  · obtain rfl := Value.smi_inj.mp heq
    exact .inr ⟨x, y + z, rfl, hx, rfl, hsum, hgoes.add hcovers hstep⟩

theorem Moved.small_iff (h : Moved way w u) :
    (∃ x, w = .smi x ∧ Word.IsSmi x) ↔ ∃ y, u = .smi y ∧ Word.IsSmi y := by
  obtain rfl | ⟨x, y, rfl, hx, rfl, hy, -⟩ := h
  · rfl
  · exact ⟨fun _ => ⟨y, rfl, hy⟩, fun _ => ⟨x, rfl, hx⟩⟩

theorem Moved.exists_start (h : Moved way w (.smi y)) (hy : Word.IsSmi y) :
    ∃ x, w = .smi x ∧ Word.IsSmi x ∧ way.Goes x y := by
  obtain rfl | ⟨x, y', rfl, hx, heq, -, hgoes⟩ := h
  · exact ⟨y, rfl, hy, .refl way y⟩
  · obtain rfl := Value.smi_inj.mp heq
    exact ⟨x, rfl, hx, hgoes⟩

theorem goes_of_size (hm : Computes m) (hs : Reaches g m s) {size : InstId} (hholds : RangeHolds g s.values size)
    (hrun : direction g size = .ok way) (hne : way ≠ .unknown) (hsize : s.values size = some (.smi z))
    (hz : Word.IsSmi z) : way.Goes 0 z := by
  obtain ⟨ν, P, hP, hrespects, hagrees⟩ := hholds z hsize hz
  rw [Value.smi_inj.mp (hagrees size hP _ hsize)]
  refine sign_of_direction hrespects hP (fun c hc => ?_) hrun hne
  have hc := smi_of_constant hm hs hc hsize
  exact Value.smi_inj.mp ((hagrees size hP _ hsize).symm.trans hc)

theorem moved_of_step (hm : Computes m) (hs : Reaches g m s) {k : Inst} {base size : InstId}
    (hmoves : Moves g k base size way) (hholds : RangeHolds g s.values size) (hcovers : v.direction.Covers way)
    {result : Value} {μ : M} (hdoes : m.does s.values s.memory i k (some result) μ)
    (hbase : Related (Moved v.direction) s.values initial base) : ∃ w, s.values initial = some w ∧
    Moved v.direction w result := by
  obtain ⟨w, u, hw, hu, hmoved⟩ := hbase
  refine ⟨w, hw, ?_⟩
  cases hmoves with
  | right hway hne =>
    obtain ⟨x, y, z, hx, hxsmi, hy, hysmi, hexact, hz, hresult⟩ := hm.operations _ _ _ _ _ _ _ _ _ hdoes
    obtain rfl := Option.some_inj.mp (hu.symm.trans hx)
    obtain rfl := Option.some_inj.mp hresult
    obtain rfl : x + y = z := Option.some_inj.mp hexact
    exact hmoved.step hcovers (goes_of_size hm hs hholds hway hne hy hysmi) hxsmi hz
  | left hway hne =>
    obtain ⟨x, y, z, hx, hxsmi, hy, hysmi, hexact, hz, hresult⟩ := hm.operations _ _ _ _ _ _ _ _ _ hdoes
    obtain rfl := Option.some_inj.mp (hu.symm.trans hy)
    obtain rfl := Option.some_inj.mp hresult
    obtain rfl : x + y = z := Option.some_inj.mp hexact
    rw [Int.add_comm] at hz ⊢
    exact hmoved.step hcovers (goes_of_size hm hs hholds hway hne hx hxsmi) hysmi hz
  | back hway hne =>
    obtain ⟨x, y, z, hx, hxsmi, hy, hysmi, hexact, hz, hresult⟩ := hm.operations _ _ _ _ _ _ _ _ _ hdoes
    obtain rfl := Option.some_inj.mp (hu.symm.trans hx)
    obtain rfl := Option.some_inj.mp hresult
    obtain rfl : x - y = z := Option.some_inj.mp hexact
    rw [Int.sub_eq_add_neg] at hz ⊢
    exact hmoved.step hcovers (goes_of_size hm hs hholds hway hne hy hysmi).inverted hxsmi hz

theorem passes_moved (hg : Definite g) (hm : Computes m) (hsteps : StepsHold g m)
    (hall : ∀ d ∈ v.seen, v.Explains g header d) (hinitial : v.initial = some initial) :
    Passes g m (Moved v.direction) initial {d | v.Sees g d} := by
  intro s i rest n result μ hs hrest hi hn hdoes hinputs
  have hmem : i ∈ g.insts s.block := by
    obtain ⟨path, front, hfollows⟩ := Follows.of_reaches hs
    rw [(hfollows.sound hg.traceable).2.2, hrest]
    simp
  obtain ⟨_, _, a, heq, ha, hsees⟩ | ⟨_, _, _, _, heq, -⟩ | ⟨base, size, way, hmoves, hcovers, hsees⟩ :=
    hi.cases hall hinitial (inst_eq_ok.mpr ⟨n, hn, rfl⟩)
  · rw [heq] at hdoes hinputs
    obtain ⟨w, u, hw, hu, hmoved⟩ := hinputs a (List.mem_of_getElem? (orFault_eq_ok.mp ha)) hsees
    have hresult := hm.constraints _ _ _ _ _ _ _ _ hdoes ha
    obtain rfl := Option.some_inj.mp (hresult.trans hu)
    exact ⟨w, hw, hmoved⟩
  · exact absurd (by rw [heq]; rfl) (hg.phisApart.opcode_ne_phi hg.located hmem hn)
  · obtain ⟨_, _, _, _, heq, hbase⟩ := hmoves.eq_binaryOp
    exact moved_of_step hm hs hmoves (hsteps s i rest n base size way hs hrest hn hmoves) hcovers hdoes
      (hinputs base hbase hsees)

/-! ## Ranges -/

def currently? (σ : Values) : Boundary → Option Int
  | .unknown => none
  | .constant v => some v
  | .symbol d offset => ((σ d).bind Value.smi?).map (· + offset)

/-- The number lies between what the ends of the range stand for now. -/
def LiesIn (σ : Values) (r : Range) (x : Int) : Prop :=
  ∃ lo hi, currently? σ r.min = some lo ∧ currently? σ r.max = some hi ∧ lo ≤ x ∧ x ≤ hi

theorem currently_of_definition (hm : Computes m) (hs : Reaches g m s) (hx : s.values d = some (.smi x))
    (hsmi : Word.IsSmi x) {b : Boundary} (hb : ofDefinition g d 0 = .ok b) : currently? s.values b = some x := by
  unfold ofDefinition at hb
  obtain ⟨c, hc, hb⟩ := bind_eq_ok.mp hb
  cases c with
  | none =>
    obtain rfl := pure_eq_ok.mp hb
    simp [currently?, hx, Value.smi, Value.smi?, Constant.smi?]
  | some c =>
    obtain rfl := pure_eq_ok.mp hb
    obtain rfl := Value.smi_inj.mp (smi_of_constant hm hs hc hx)
    obtain ⟨hlo, hhi⟩ := hsmi
    unfold Word.smiMin at hlo
    unfold Word.smiMax at hhi
    simp only [currently?, Word.addSaturating, Word.least, Word.greatest, Option.some.injEq]
    omega

theorem Bounded.liesIn (h : Bounded g initial way range) (hm : Computes m) (hs : Reaches g m s)
    (hinitial : s.values initial = some (.smi x)) (hx : Word.IsSmi x) (hy : Word.IsSmi y) (hgoes : way.Goes x y) :
    LiesIn s.values range y := by
  cases h with
  | up hb => exact ⟨x, _, currently_of_definition hm hs hinitial hx hb, rfl, hgoes, hy.2⟩
  | down hb => exact ⟨_, x, rfl, currently_of_definition hm hs hinitial hx hb, hy.1, hgoes⟩
  | still => exact ⟨_, _, rfl, rfl, hy⟩
  | both => exact ⟨_, _, rfl, rfl, hy⟩

/-- A loop phi that is found to be an induction variable only ever takes values of its range, where the boundary is the
value that the initial definition has now, the only input from outside the loop. The values are small integers as long
as that one is. This holds wherever the phi is in scope, and whatever the loop is taken to be. -/
theorem inductionRange_sound (hg : Definite g) (hm : Computes m) (hsteps : StepsHold g m) (hphi : LivePhi g header phi)
    (hrun : inductionRange? g header phi = .ok (some range)) :
    ∃ initial way, Bounded g initial way range ∧
      (∀ n, g.nodes[phi.index]? = some n → ∀ a ∈ n.inst.args, a = initial ∨ Induction.Inside g header a) ∧
      ∀ s, Reaches g m s → g.Dominates header s.block → ∃ w v, s.values initial = some w ∧ s.values phi = some v ∧
        ((∃ x, w = .smi x ∧ Word.IsSmi x) ↔ ∃ y, v = .smi y ∧ Word.IsSmi y) ∧
        ∀ y, v = .smi y → Word.IsSmi y → LiesIn s.values range y := by
  obtain ⟨v, initial, hinitial, hsees, hall, hbounded⟩ := exists_induction hrun
  refine ⟨initial, v.direction, hbounded, fun n hn a ha => ?_, fun s hs hdom => ?_⟩
  · obtain ⟨n', hn', halive⟩ := Definite.exists_alive hphi
    obtain rfl := Option.some_inj.mp (hn.symm.trans hn')
    exact initial_or_inside hall hinitial hsees hn halive ha
  obtain ⟨path, front, hfollows⟩ := Follows.of_reaches hs
  obtain ⟨hpath, hblock, -⟩ := hfollows.sound hg.traceable
  have hheader : g.Reachable header := hdom.reachable (hblock ▸ hpath.reachable)
  have hscope : InScope g s.block front phi := ⟨header, hdom, .inl (hg.live_of_livePhi hheader hphi)⟩
  obtain ⟨w, u, hw, hu, hmoved⟩ := (drawnFrom_initial hg hall hinitial).related hg (fun _ => .inl rfl)
    (passes_moved hg hm hsteps hall hinitial) hfollows hsees hscope
  refine ⟨w, u, hw, hu, hmoved.small_iff, fun y hy hsmi => ?_⟩
  subst hy
  obtain ⟨x, rfl, hx, hgoes⟩ := hmoved.exists_start hsmi
  exact hbounded.liesIn hm hs hw hx hsmi hgoes

/-! ## A counter -/

theorem stepsHold_of_constants (hm : Computes m)
    (h : ∀ d r, g.range d = .ok (some r) → ∃ c, g.smiConstantOf d = .ok (some c) ∧ r = .constant c) :
    StepsHold g m := by
  intro s i rest n base size way hs _ _ _ y hy hsmi
  refine ⟨fun _ => y, (· = size), rfl, ⟨fun _ _ => hsmi, ?_⟩, ?_⟩
  · rintro _ rfl r hr side
    obtain ⟨c, hc, rfl⟩ := h _ r hr
    obtain rfl := Value.smi_inj.mp (smi_of_constant hm hs hc hy)
    refine ⟨?_, ?_⟩
    · cases side <;> exact Int.le_refl y
    · cases side <;> rintro _ _ ⟨⟩
  · rintro _ rfl w hw
    exact Option.some_inj.mp (hw.symm.trans hy)

/-- Does what `Computes` asks for, and anything else in any way. -/
def arithmetic : Meaning Unit where
  does σ _ _ d r _ := match d with
    | .constant c => r = some (.constant c)
    | .constraint _ inputs => ∀ a, itemAt inputs 0 = .ok a → r = σ a
    | .binaryOp .binarySmiOp op a b _ => ∃ x y z, σ a = some (.smi x) ∧ Word.IsSmi x ∧ σ b = some (.smi y) ∧
        Word.IsSmi y ∧ exactResult op x y = some z ∧ Word.IsSmi z ∧ r = some (.smi z)
    | _ => True
  goes _ _ _ _ := True

theorem computes_arithmetic : Computes arithmetic where
  constants _ _ _ _ _ _ h := h
  constraints _ _ _ _ _ a _ _ h ha := h a ha
  operations _ _ _ _ _ _ _ _ _ h := h

def arithmeticEvaluator (g : FlowGraph) : Evaluator g arithmetic where
  run σ μ d := match d with
    | .constant c => some (some (.constant c), μ)
    | .unary .checkSmi _ => some (none, μ)
    | .binaryOp .binarySmiOp op a b _ =>
      ((σ a).bind Value.smi?).bind fun x => ((σ b).bind Value.smi?).bind fun y => (exactResult op x y).bind fun z =>
        if Word.IsSmi x ∧ Word.IsSmi y ∧ Word.IsSmi z then some (some (.smi z), μ) else none
    | _ => none
  does := by
    intro σ μ i d r μ' _ hrun
    split at hrun
    case h_1 c => exact (Prod.mk.inj (Option.some_inj.mp hrun)).1.symm
    case h_2 => trivial
    case h_3 op a b _ =>
      obtain ⟨x, hx, hrun⟩ := Option.bind_eq_some_iff.mp hrun
      obtain ⟨y, hy, hrun⟩ := Option.bind_eq_some_iff.mp hrun
      obtain ⟨z, hz, hrun⟩ := Option.bind_eq_some_iff.mp hrun
      split at hrun
      case isFalse => cases hrun
      case isTrue hsmi =>
        obtain rfl := (Prod.mk.inj (Option.some_inj.mp hrun)).1
        exact ⟨x, y, z, eq_smi_of_bind hx, hsmi.1, eq_smi_of_bind hy, hsmi.2.1, hz, hsmi.2.2, rfl⟩
    case h_4 => cases hrun
  jumps _ := ⟨trivial, trivial⟩
  branches _ _ := ⟨trivial, trivial⟩

/-- The graph that construction makes of the counting loop, with loops and with the range of the constant. -/
def countedGraph? (r : FlowGraph) : Option FlowGraph :=
  match Ssa.construct.run r with
  | .ok (.ok (), g) =>
    match (Flow.computeLoops >>= fun _ => Edit.setRange ⟨9⟩ (some (.constant 1))).run g with
    | .ok ((), g') => some g'
    | _ => none
  | _ => none

/-- What is to be seen of it, computed. The execution has gone through the loop once. -/
def countedHolds (g : FlowGraph) : Bool :=
  decide (DefiniteSeen g ∧ LivePhi g ⟨2⟩ ⟨15⟩ ∧
    (inductionRange? g ⟨2⟩ ⟨15⟩).toOption = some (some ⟨.symbol ⟨17⟩ 0, .maxSmi⟩)) &&
  (g.nodes.all fun n => n.range.all fun r => (n.inst.constant?.bind Constant.smi?).any fun c => r == .constant c) &&
  ((g.range ⟨9⟩).toOption == some (some (.constant 1))) &&
  (g.initialDefinitions.all fun d => (g.nodes[d.index]?).isSome) &&
  ((arithmeticEvaluator g).after? 7 (startState g (fun k => .smi (k + 3)) ())).any fun s =>
    s.block == ⟨2⟩ && (s.values ⟨15⟩).bind Value.smi? == some 4 && (s.values ⟨17⟩).bind Value.smi? == some 3

/-- The counter is four and lies between the first parameter, three, and the greatest small integer. -/
theorem countedLoop_in_range : ∃ g s, Definite g ∧ StepsHold g arithmetic ∧ g.range ⟨9⟩ = .ok (some (.constant 1)) ∧
    inductionRange? g ⟨2⟩ ⟨15⟩ = .ok (some ⟨.symbol ⟨17⟩ 0, .maxSmi⟩) ∧ Reaches g arithmetic s ∧
    s.values ⟨17⟩ = some (.smi 3) ∧ s.values ⟨15⟩ = some (.smi 4) ∧ LiesIn s.values ⟨.symbol ⟨17⟩ 0, .maxSmi⟩ 4 := by
  have hcompute : (((Command.script countedLoop normalEntry (FlowGraph.new "f" 2 1)).bind (countedGraph? ·.2)).map
      countedHolds) = some true := by decide +kernel
  obtain ⟨g, -, hholds⟩ := Option.map_eq_some_iff.mp hcompute
  unfold countedHolds at hholds
  simp only [Bool.and_eq_true, beq_iff_eq, decide_eq_true_eq, List.all_eq_true, Option.any_eq_true,
    toOption_eq_some_iff] at hholds
  obtain ⟨⟨⟨⟨⟨hseen, hphi, hrun⟩, hconstants⟩, hrange⟩, hinitial⟩, s, hs, ⟨hblock, hfour⟩, hthree⟩ := hholds
  have hg := hseen.definite
  have hsteps : StepsHold g arithmetic := stepsHold_of_constants computes_arithmetic fun d r hr => by
    obtain ⟨n, hn, hr⟩ := bind_eq_ok.mp hr
    have hn := orFault_eq_ok.mp hn
    have hall := Array.all_eq_true_iff_forall_mem.mp hconstants n (Array.mem_of_getElem? hn)
    rw [pure_eq_ok.mp hr, Option.all_some, Option.any_eq_true] at hall
    obtain ⟨c, hc, heq⟩ := hall
    refine ⟨c, ?_, beq_iff_eq.mp heq⟩
    unfold FlowGraph.smiConstantOf FlowGraph.constantOf
    rw [inst_eq_ok.mpr ⟨n, hn, rfl⟩]
    exact congrArg Except.ok hc
  have hs : Reaches g arithmetic s := ⟨_, start_startState hinitial, Evaluator.steps_of_after hs⟩
  have hfour := eq_smi_of_bind hfour
  obtain ⟨initial, way, -, -, hall⟩ := inductionRange_sound hg computes_arithmetic hsteps hphi hrun
  obtain ⟨w, v, -, hv, -, hlies⟩ := hall s hs (hblock ▸ .refl _)
  obtain rfl := Option.some_inj.mp (hfour.symm.trans hv)
  exact ⟨g, s, hg, hsteps, hrange, hrun, hs, eq_smi_of_bind hthree, hfour, hlies 4 rfl (by decide)⟩

end Midend.Ranges
