import Midend.Proofs.Execution
import Midend.Proofs.Ranges.Boundaries
import Midend.Ranges

/-! # Ranges of arithmetic

What is computed for the two ends of an operation on small integers are boundaries of its exact result, or marks of an
overflow. As long as chains of symbols are short enough to be followed to their ends, an operation of which no end is
found to overflow gives a small integer.
-/

namespace Midend

/-! ## Conjunction of bits -/

namespace Word

variable {x y : Int}

theorem toNat_bits (hpos : 0 ≤ y) (hy : IsSmi y) : (bits y).toNat = y.toNat := by
  unfold bits
  rw [BitVec.toNat_ofInt, Int.emod_eq_of_lt hpos]
  have := hy.2
  unfold smiMax at this
  omega

theorem and_bounds (hpos : 0 ≤ y) (hy : IsSmi y) : 0 ≤ and x y ∧ and x y ≤ y := by
  have hle : (bits x &&& bits y).toNat ≤ y.toNat := by
    rw [BitVec.toNat_and, ← toNat_bits hpos hy]
    exact Nat.and_le_right
  have hmax := hy.2
  unfold smiMax at hmax
  unfold and
  rw [BitVec.toInt_eq_toNat_of_lt (by omega)]
  omega

theorem and_comm (x y : Int) : and x y = and y x := by
  unfold and
  rw [BitVec.and_comm]

end Word

namespace Ranges

open Execution

variable {g : FlowGraph} {ν : InstId → Int} {s : Side} {b left right : Boundary} {d l r : InstId}
    {lr rr leftRange : Range}
  {x y z : Int} {n : Nat} {op : Token}

/-- The number lies between the ends of the range. -/
def Contains (ν : InstId → Int) (r : Range) (x : Int) : Prop := ∀ s : Side, s.Holds ν (s.pick r) x

theorem contains_unknown (hx : Word.IsSmi x) : Contains ν .unknown x := by
  intro s
  cases s
  · exact hx.1
  · exact hx.2

theorem Side.exists_range {f : Side → Except Fault Boundary} {p : Side → Boundary → Prop}
    (h : ∀ s, ∃ b, f s = .ok b ∧ p s b) : ∃ r : Range, f .lower = .ok r.min ∧ f .upper = .ok r.max ∧
    ∀ s, p s (s.pick r) := by
  obtain ⟨min, hmin, hlower⟩ := h .lower
  obtain ⟨max, hmax, hupper⟩ := h .upper
  refine ⟨⟨min, max⟩, hmin, hmax, fun s => ?_⟩
  cases s
  · exact hlower
  · exact hupper

/-! ## Chains of symbols -/

/-- From symbol to symbol, each being the boundary of the one before, one comes within `n` steps to a boundary that is
no symbol or to a definition without a range. -/
def Ends (g : FlowGraph) (s : Side) : Nat → Boundary → Prop
  | n + 1, .symbol d _ => ∃ range, g.range d = .ok range ∧ ∀ r, range = some r → Ends g s n (s.pick r)
  | 0, .symbol _ _ => False
  | _, _ => True

theorem ends_constant {v : Int} : Ends g s n (.constant v) := by
  cases n <;> trivial

theorem Ends.offset {o o' : Int} (h : Ends g s n (.symbol d o)) : Ends g s n (.symbol d o') := by
  cases n with
  | zero => exact h
  | succ n => exact h

theorem Ends.succ (h : Ends g s n b) : Ends g s (n + 1) b := by
  induction n generalizing b with
  | zero =>
    cases b with
    | symbol => exact h.elim
    | unknown => trivial
    | constant => trivial
  | succ n ih =>
    cases b with
    | symbol d o =>
      obtain ⟨range, hrange, hrest⟩ := h
      exact ⟨range, hrange, fun r hr => ih (hrest r hr)⟩
    | unknown => trivial
    | constant => trivial

/-- The chains of all recorded boundaries end, and soon enough to be followed. -/
def ShortChains (g : FlowGraph) : Prop := ∀ d r, g.range d = .ok (some r) → ∀ s : Side, Ends g s 60 (s.pick r)

theorem Side.exists_limit (s : Side) : ∃ v, s.limit = .constant v := by cases s <;> exact ⟨_, rfl⟩

theorem Side.exists_overflow (s : Side) : ∃ v, s.overflow = .constant v := by cases s <;> exact ⟨_, rfl⟩

/-- A constant boundary, or the mark of an overflow. -/
def Comes (ν : InstId → Int) (s : Side) (b : Boundary) (z : Int) : Prop :=
  ∃ v, b = .constant v ∧ (s.Holds ν b z ∨ b = s.overflow)

theorem comes_overflow : Comes ν s s.overflow z := by
  obtain ⟨v, hv⟩ := s.exists_overflow
  exact ⟨v, hv, .inr rfl⟩

theorem comes_orOverflow {v : Int} (h : s.Holds ν (.constant v) z) : Comes ν s (.orOverflow v s.overflow) z := by
  unfold Boundary.orOverflow
  split
  · exact ⟨v, rfl, .inl h⟩
  · exact comes_overflow

theorem Comes.holds (h : Comes ν s b x) (hx : Word.IsSmi x) : s.Holds ν b x := by
  obtain ⟨v, -, hb | rfl⟩ := h
  · exact hb
  · exact Side.holds_overflow hx

theorem comes_of_constant {depth : Nat} {v offset : Int} (h : s.Holds ν (.constant v) (z - offset)) :
    ∃ b, resolveWithin g s (depth + 1) offset (.constant v) = .ok b ∧ Comes ν s b z := by
  refine ⟨_, rfl, ?_⟩
  split
  case isTrue hzero =>
    rw [hzero, Int.sub_zero] at h
    exact ⟨v, rfl, .inl h⟩
  case isFalse =>
    refine comes_orOverflow ?_
    cases s <;> simp only [Side.Holds] at h ⊢ <;> omega

theorem comes_of_limit (depth : Nat) {offset : Int} (h : s.Holds ν s.limit (z - offset)) :
    ∃ b, resolveWithin g s (depth + 1) offset s.limit = .ok b ∧ Comes ν s b z := by
  obtain ⟨v, hv⟩ := s.exists_limit
  rw [hv] at h ⊢
  exact comes_of_constant h

theorem Side.Holds.limit_of_unknown (h : s.Holds ν .unknown x) : s.Holds ν s.limit x := by
  cases s <;> exact h

/-- A boundary whose chain ends comes to a constant boundary of the same number, which need not be small, or to the mark
of an overflow. -/
theorem comes_resolveWithin (h : Respects g ν) {depth : Nat} {offset : Int} (hends : Ends g s n b)
    (hdepth : n + 2 ≤ depth) (hb : s.Holds ν b (z - offset)) :
    ∃ b', resolveWithin g s depth offset b = .ok b' ∧ Comes ν s b' z := by
  induction n generalizing b offset depth with
  | zero =>
    obtain ⟨depth, rfl⟩ := Nat.exists_eq_add_of_le' hdepth
    cases b with
    | symbol => exact hends.elim
    | constant v => exact comes_of_constant hb
    | unknown => exact comes_of_limit _ hb.limit_of_unknown
  | succ n ih =>
    obtain ⟨depth, rfl⟩ := Nat.exists_eq_add_of_le' hdepth
    cases b with
    | constant v => exact comes_of_constant hb
    | unknown => exact comes_of_limit _ hb.limit_of_unknown
    | symbol d o =>
      obtain ⟨range, hrange, hrest⟩ := hends
      have hnext : boundaryOf g s d = .ok (range.elim s.limit s.pick) := by
        unfold boundaryOf
        rw [hrange]
        cases range <;> rfl
      have hd := (holds_boundaryOf h.on trivial hnext).1
      rw [show depth + (n + 1 + 2) = depth + n + 2 + 1 by omega]
      unfold resolveWithin
      dsimp only
      cases hsum : Word.add? offset o with
      | none => exact ⟨_, rfl, comes_overflow⟩
      | some sum =>
        obtain rfl : offset + o = sum := by
          unfold Word.add? Word.check at hsum
          split at hsum
          · exact Option.some_inj.mp hsum
          · cases hsum
        have hlast := hb.trans hd
        rw [show z - offset - o = z - (offset + o) by omega] at hlast
        dsimp only
        rw [hnext]
        cases range with
        | none => exact comes_of_limit _ hlast
        | some r => exact ih (hrest r rfl) (by omega) hlast

theorem comes_resolve (h : Respects g ν) (hends : Ends g s 61 b) (hb : s.Holds ν b z) :
    ∃ b', resolve g s b = .ok b' ∧ Comes ν s b' z :=
  comes_resolveWithin h hends (by decide) (by rwa [Int.sub_zero])

theorem comes_outermost (h : Respects g ν) (hshort : ShortChains g) {range : Range}
    (hrange : g.range d = .ok (some range)) : ∃ v, outermost g s (some range) = .ok (.constant v) ∧
    s.Holds ν (.constant v) (ν d) := by
  obtain ⟨b, hb, hcomes⟩ := comes_resolve h (hshort d range hrange s).succ (h.ranges d range hrange s)
  obtain ⟨v, rfl, -⟩ := id hcomes
  exact ⟨v, hb, hcomes.holds (h.smi d)⟩

/-! ## The ends of an operation -/

/-- A boundary of the number or the mark of an overflow, with a chain that ends. -/
structure Bounds (g : FlowGraph) (ν : InstId → Int) (s : Side) (b : Boundary) (z : Int) : Prop where
  holds : s.Holds ν b z ∨ b = s.overflow
  ends : Ends g s 61 b

theorem Comes.bounds (h : Comes ν s b z) : Bounds g ν s b z := by
  obtain ⟨v, rfl, hholds⟩ := h
  exact ⟨hholds, ends_constant⟩

theorem Bounds.resolve (h : Respects g ν) (hb : Bounds g ν s b z) : ∃ b', resolve g s b = .ok b' ∧ Comes ν s b' z := by
  obtain hholds | rfl := hb.holds
  · exact comes_resolve h hb.ends hholds
  · obtain ⟨v, hv⟩ := s.exists_overflow
    exact ⟨s.overflow, by rw [hv]; rfl, comes_overflow⟩

theorem Side.Holds.clamp (hb : s.Holds ν b x) (hx : Word.IsSmi x) : s.Holds ν b.clamp x := by
  unfold Boundary.clamp
  split
  case h_2 => exact hb
  case h_1 v =>
    obtain ⟨hlo, hhi⟩ := hx
    unfold Boundary.minSmi Boundary.maxSmi
    cases s <;> simp only [Side.Holds] at hb <;> split <;> try split
    all_goals simp only [Side.Holds]; omega

theorem Bounds.clamp (hb : Bounds g ν s b z) (hz : Word.IsSmi z) : s.Holds ν b.clamp z := by
  obtain hholds | rfl := hb.holds
  · exact hholds.clamp hz
  · exact (Side.holds_overflow hz).clamp hz

theorem bounds_addSymbol (hleft : s.Holds ν left x) (hright : s.Holds ν right y) (hends : Ends g s 61 left)
    (hends' : Ends g s 61 right) (hb : addSymbol? left right = some b) : Bounds g ν s b (x + y) := by
  unfold addSymbol? at hb
  split at hb
  case h_1 d o c =>
    split at hb
    case isFalse => cases hb
    case isTrue =>
      obtain rfl := Option.some_inj.mp hb
      refine ⟨.inl ?_, hends.offset⟩
      cases s <;> simp only [Side.Holds] at hleft hright ⊢ <;> omega
  case h_2 c d o =>
    split at hb
    case isFalse => cases hb
    case isTrue =>
      obtain rfl := Option.some_inj.mp hb
      refine ⟨.inl ?_, hends'.offset⟩
      cases s <;> simp only [Side.Holds] at hleft hright ⊢ <;> omega
  case h_3 => cases hb

theorem bounds_subSymbol (hleft : s.Holds ν left x) (hright : s.opposite.Holds ν right y) (hends : Ends g s 61 left)
    (hb : subSymbol? left right = some b) : Bounds g ν s b (x - y) := by
  unfold subSymbol? at hb
  split at hb
  case h_2 => cases hb
  case h_1 d o c =>
    split at hb
    case isFalse => cases hb
    case isTrue =>
      obtain rfl := Option.some_inj.mp hb
      refine ⟨.inl ?_, hends.offset⟩
      cases s <;> simp only [Side.opposite, Side.Holds] at hleft hright ⊢ <;> omega

theorem bounds_and {v : Int} (hpos : 0 ≤ y) (hy : Word.IsSmi y) (hv : Side.upper.Holds ν (.constant v) y) (s : Side) :
    Bounds g ν s (s.pick ⟨.constant 0, .constant v⟩) (Word.and x y) := by
  obtain ⟨hlo, hhi⟩ := Word.and_bounds (x := x) hpos hy
  cases s
  · exact ⟨.inl hlo, ends_constant⟩
  · exact ⟨.inl (Int.le_trans hhi hv), ends_constant⟩

section

variable (h : Respects g ν) (hshort : ShortChains g) (hl : g.range l = .ok (some lr)) (hr : g.range r = .ok (some rr))

include h hshort hl hr

theorem bounds_addEnd (hleft : s.Holds ν left (ν l)) (hends : Ends g s 61 left) :
    ∃ b, addEnd g s left lr rr = .ok b ∧ Bounds g ν s b (ν l + ν r) := by
  unfold addEnd
  split
  case h_1 b hb =>
    exact ⟨b, rfl, bounds_addSymbol hleft (h.ranges r rr hr s) hends (hshort r rr hr s).succ hb⟩
  case h_2 =>
    obtain ⟨v, hv, hvholds⟩ := comes_outermost (s := s) h hshort hl
    obtain ⟨w, hw, hwholds⟩ := comes_outermost (s := s) h hshort hr
    rw [hv, hw]
    refine ⟨_, rfl, Comes.bounds (comes_orOverflow ?_)⟩
    cases s <;> simp only [Side.Holds] at hvholds hwholds ⊢ <;> omega

theorem bounds_subEnd (hleft : s.Holds ν left (ν l)) (hends : Ends g s 61 left) :
    ∃ b, subEnd g s left lr rr = .ok b ∧ Bounds g ν s b (ν l - ν r) := by
  unfold subEnd
  split
  case h_1 b hb => exact ⟨b, rfl, bounds_subSymbol hleft (h.ranges r rr hr s.opposite) hends hb⟩
  case h_2 =>
    obtain ⟨v, hv, hvholds⟩ := comes_outermost (s := s) h hshort hl
    obtain ⟨w, hw, hwholds⟩ := comes_outermost (s := s.opposite) h hshort hr
    rw [hv, hw]
    refine ⟨_, rfl, Comes.bounds (comes_orOverflow ?_)⟩
    cases s <;> simp only [Side.opposite, Side.Holds] at hvholds hwholds ⊢ <;> omega

theorem exists_binaryEnds (op : Token) (hleft : ∀ s : Side, s.Holds ν (s.pick leftRange) (ν l) ∧
    Ends g s 61 (s.pick leftRange)) : ∃ ends, binaryEnds g op leftRange lr rr = .ok ends ∧
      ∀ e, ends = some e → ∃ z, exactResult op (ν l) (ν r) = some z ∧ ∀ s : Side, Bounds g ν s (s.pick e) z := by
  unfold binaryEnds
  split
  case h_1 =>
    obtain ⟨ends, hmin, hmax, hbounds⟩ :=
      Side.exists_range fun s => bounds_addEnd h hshort hl hr (hleft s).1 (hleft s).2
    refine ⟨some ends, bind_eq_ok.mpr ⟨_, hmin, bind_eq_ok.mpr ⟨_, hmax, rfl⟩⟩, ?_⟩
    rintro _ ⟨⟩
    exact ⟨_, rfl, hbounds⟩
  case h_2 =>
    obtain ⟨ends, hmin, hmax, hbounds⟩ :=
      Side.exists_range fun s => bounds_subEnd h hshort hl hr (hleft s).1 (hleft s).2
    refine ⟨some ends, bind_eq_ok.mpr ⟨_, hmin, bind_eq_ok.mpr ⟨_, hmax, rfl⟩⟩, ?_⟩
    rintro _ ⟨⟩
    exact ⟨_, rfl, hbounds⟩
  case h_3 =>
    obtain ⟨rlo, hrlo, hrlower⟩ := comes_outermost (s := .lower) h hshort hr
    obtain ⟨rhi, hrhi, hrupper⟩ := comes_outermost (s := .upper) h hshort hr
    obtain ⟨llo, hllo, hllower⟩ := comes_outermost (s := .lower) h hshort hl
    obtain ⟨lhi, hlhi, hlupper⟩ := comes_outermost (s := .upper) h hshort hl
    rw [hrlo, hrhi, hllo, hlhi]
    by_cases hrpos : 0 ≤ rlo
    · refine ⟨some ⟨.constant 0, .constant rhi⟩, if_pos hrpos, ?_⟩
      rintro _ ⟨⟩
      exact ⟨_, rfl, bounds_and (Int.le_trans hrpos hrlower) (h.smi r) hrupper⟩
    by_cases hlpos : 0 ≤ llo
    · refine ⟨some ⟨.constant 0, .constant lhi⟩, (if_neg hrpos).trans (if_pos hlpos), ?_⟩
      rintro _ ⟨⟩
      have hbounds := bounds_and (g := g) (ν := ν) (x := ν r) (Int.le_trans hlpos hllower) (h.smi l) hlupper
      exact ⟨_, rfl, by rwa [Word.and_comm]⟩
    · exact ⟨none, (if_neg hrpos).trans (if_neg hlpos), by rintro _ ⟨⟩⟩
  case h_4 => exact ⟨none, rfl, by rintro _ ⟨⟩⟩

end

/-! ## The range of an operation -/

theorem isArrayLength_ok {i : Inst} (hl : g.inst l = .ok i) : ∃ isLength, isArrayLength g l = .ok isLength := by
  unfold isArrayLength
  rw [hl]
  cases i <;> exact ⟨_, rfl⟩

theorem range_ok {i : Inst} (hd : g.inst d = .ok i) : ∃ range, g.range d = .ok range := by
  obtain ⟨n, hn, -⟩ := bind_eq_ok.mp hd
  exact ⟨n.range, by unfold FlowGraph.range; rw [hn]; rfl⟩

/-- A number whose boundary comes to a small integer does not lie beyond the small integers on that side. -/
theorem Comes.limit (h : Comes ν s b z) (hno : b.overflowed = false) : s.Holds ν s.limit z := by
  obtain ⟨v, rfl, hv | hv⟩ := h
  · have hsmi : Word.IsSmi v := by simpa [Boundary.overflowed] using hno
    obtain ⟨hlo, hhi⟩ := hsmi
    cases s
    · exact Int.le_trans hlo hv
    · exact Int.le_trans hv hhi
  · rw [hv] at hno
    cases s <;> cases hno

/-- The range of an operation contains its exact result if that is a small integer, and the result is one if the
operation is said not to overflow. -/
theorem exists_binaryRange (op : Token) {i j : Inst} (h : Respects g ν) (hshort : ShortChains g) (hl : g.inst l = .ok i)
    (hr : g.inst r = .ok j) :
    ∃ range canOverflow, binaryRange g op l r = .ok (range, canOverflow) ∧
      (∀ z, exactResult op (ν l) (ν r) = some z → Word.IsSmi z → Contains ν range z) ∧
      (canOverflow = some false → ∃ z, exactResult op (ν l) (ν r) = some z ∧ Word.IsSmi z) := by
  obtain ⟨lr, hlr⟩ := range_ok hl
  obtain ⟨rr, hrr⟩ := range_ok hr
  obtain ⟨isLength, hisLength⟩ := isArrayLength_ok hl
  have hunknown : (∀ z, exactResult op (ν l) (ν r) = some z → Word.IsSmi z → Contains ν .unknown z) ∧
      ((none : Option Bool) = some false → ∃ z, exactResult op (ν l) (ν r) = some z ∧ Word.IsSmi z) :=
    ⟨fun z _ hz => contains_unknown hz, by rintro ⟨⟩⟩
  unfold binaryRange
  rw [hlr, hrr]
  cases lr with
  | none => exact ⟨_, _, rfl, hunknown⟩
  | some lr =>
  cases rr with
  | none => exact ⟨_, _, rfl, hunknown⟩
  | some rr =>
  have hleft (s : Side) : s.Holds ν (s.pick (if isLength then ⟨.symbol l 0, .symbol l 0⟩ else lr)) (ν l) ∧
      Ends g s 61 (s.pick (if isLength then ⟨.symbol l 0, .symbol l 0⟩ else lr)) := by
    split
    · refine ⟨?_, ?_⟩
      · cases s <;> simp [Side.pick, Side.Holds]
      · have hends : Ends g s 61 (.symbol l 0) := ⟨_, hlr, fun r hr => by cases hr; exact hshort l lr hlr s⟩
        cases s <;> exact hends
    · exact ⟨h.ranges l lr hlr s, (hshort l lr hlr s).succ⟩
  obtain ⟨ends, hends, hsound⟩ := exists_binaryEnds h hshort hlr hrr op hleft
  cases ends with
  | none =>
    refine ⟨_, _, ?_, hunknown⟩
    refine bind_eq_ok.mpr ⟨_, rfl, bind_eq_ok.mpr ⟨_, rfl, bind_eq_ok.mpr ⟨_, hisLength, ?_⟩⟩⟩
    exact bind_eq_ok.mpr ⟨_, hends, rfl⟩
  | some ends =>
    obtain ⟨z, hz, hbounds⟩ := hsound ends rfl
    obtain ⟨constants, hlow, hhigh, hcomes⟩ := Side.exists_range fun s => (hbounds s).resolve h
    refine ⟨⟨ends.min.clamp, ends.max.clamp⟩, some (constants.min.overflowed || constants.max.overflowed), ?_, ?_, ?_⟩
    · refine bind_eq_ok.mpr ⟨_, rfl, bind_eq_ok.mpr ⟨_, rfl, bind_eq_ok.mpr ⟨_, hisLength, ?_⟩⟩⟩
      exact bind_eq_ok.mpr ⟨_, hends, bind_eq_ok.mpr ⟨_, hlow, bind_eq_ok.mpr ⟨_, hhigh, rfl⟩⟩⟩
    · intro z' hz' hsmi s
      obtain rfl : z = z' := Option.some_inj.mp (hz.symm.trans hz')
      have hclamp := (hbounds s).clamp hsmi
      cases s <;> exact hclamp
    · intro hno
      obtain ⟨hl, hh⟩ := Bool.or_eq_false_iff.mp (Option.some_inj.mp hno)
      exact ⟨z, hz, (hcomes .lower).limit hl, (hcomes .upper).limit hh⟩

/-- Of every operation on two definitions whose ranges hold of their values, the range contains the exact result if that
is a small integer. Only where the result is one is the operation said not to overflow, and only there does it lose its
check. -/
theorem binaryRange_sound {i j : Inst} (h : Respects g ν) (hshort : ShortChains g) (hl : g.inst l = .ok i)
    (hr : g.inst r = .ok j) :
    ∃ range canOverflow, binaryRange g op l r = .ok (range, canOverflow) ∧
      (∀ z, exactResult op (ν l) (ν r) = some z → Word.IsSmi z → Contains ν range z) ∧
      (canOverflow = some false → ∃ z, exactResult op (ν l) (ν r) = some z ∧ Word.IsSmi z) ∧
      ∀ overflow, ∃ clears, definitionRange g (.binaryOp .binarySmiOp op l r overflow) = .ok (range, clears) ∧
        (clears = true → ∃ z, exactResult op (ν l) (ν r) = some z ∧ Word.IsSmi z) := by
  obtain ⟨range, canOverflow, hrun, hcontains, hsmall⟩ := exists_binaryRange op h hshort hl hr
  refine ⟨range, canOverflow, hrun, hcontains, hsmall, fun overflow => ?_⟩
  refine ⟨overflow && canOverflow == some false, ?_, fun hclears => hsmall ?_⟩
  · unfold definitionRange
    dsimp only
    rw [hrun]
    rfl
  · exact beq_iff_eq.mp (Bool.and_eq_true_iff.mp hclears).2

/-- Two parameters, of which the second is at least one and no greater than the first. -/
def boundedByOther : FlowGraph :=
  { FlowGraph.new "f" 2 0 with
    nodes := #[{ inst := .parameter 0, range := some (.between 0 100) },
      { inst := .parameter 1, range := some ⟨.constant 1, .symbol ⟨0⟩ 0⟩ }] }

/-- The first parameter is seven, everything else is five. -/
def sevenAndFive (d : InstId) : Int := if d.index = 0 then 7 else 5

theorem range_boundedByOther {d : InstId} {r : Range} (h : boundedByOther.range d = .ok (some r)) :
    d.index = 0 ∧ r = .between 0 100 ∨ d.index = 1 ∧ r = ⟨.constant 1, .symbol ⟨0⟩ 0⟩ := by
  obtain ⟨k⟩ := d
  match k with
  | 0 => exact .inl ⟨rfl, (Option.some_inj.mp (Except.ok.inj h)).symm⟩
  | 1 => exact .inr ⟨rfl, (Option.some_inj.mp (Except.ok.inj h)).symm⟩
  | k + 2 => cases h

theorem respects_boundedByOther : Respects boundedByOther sevenAndFive where
  smi d := by
    unfold sevenAndFive
    split <;> decide
  ranges d r hr s := by
    obtain ⟨hd, rfl⟩ | ⟨hd, rfl⟩ := range_boundedByOther hr <;> unfold sevenAndFive <;> cases s <;>
      simp [hd, Side.Holds, Side.pick, Range.between]

theorem shortChains_boundedByOther : ShortChains boundedByOther := by
  intro d r hr s
  obtain ⟨-, rfl⟩ | ⟨-, rfl⟩ := range_boundedByOther hr
  · cases s <;> exact ends_constant
  · cases s
    · exact ends_constant
    · refine ⟨_, rfl, ?_⟩
      rintro _ ⟨⟩
      exact ends_constant

/-- Their sum exceeds the first by at most a hundred, and it does not overflow. -/
theorem boundedByOther_sum : binaryRange boundedByOther .add ⟨0⟩ ⟨1⟩ =
    .ok (⟨.constant 1, .symbol ⟨0⟩ 100⟩, some false) ∧ ∃ range canOverflow, binaryRange boundedByOther .add ⟨0⟩ ⟨1⟩ =
    .ok (range, canOverflow) ∧
      (∀ z, exactResult .add (sevenAndFive ⟨0⟩) (sevenAndFive ⟨1⟩) = some z → Word.IsSmi z →
        Contains sevenAndFive range z) ∧
      (canOverflow = some false →
        ∃ z, exactResult .add (sevenAndFive ⟨0⟩) (sevenAndFive ⟨1⟩) = some z ∧ Word.IsSmi z) ∧
      ∀ overflow, ∃ clears,
        definitionRange boundedByOther (.binaryOp .binarySmiOp .add ⟨0⟩ ⟨1⟩ overflow) = .ok (range, clears) ∧
          (clears = true → ∃ z, exactResult .add (sevenAndFive ⟨0⟩) (sevenAndFive ⟨1⟩) = some z ∧ Word.IsSmi z) :=
  ⟨rfl, binaryRange_sound respects_boundedByOther shortChains_boundedByOther rfl rfl⟩

end Ranges

end Midend
