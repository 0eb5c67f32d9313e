import Midend.Proofs.Reading
import Midend.Ranges.Transfer

/-! # What boundaries say

A valuation gives every definition a small integer. Where the ranges of a graph hold of it, what is computed from
symbolic boundaries holds of it as well: resolving, folding and expanding a boundary only ever loosen it. One thing
has to be assumed: that definitions which count as the same have the same value. Otherwise they are confused.
-/

namespace Midend.Ranges

variable {g : FlowGraph} {ν : InstId → Int} {s : Side} {b b' : Boundary} {d : InstId} {x L : Int} {P : InstId → Prop}

def Denotes (ν : InstId → Int) : Boundary → Int → Prop
  | .unknown, _ => False
  | .constant v, x => x = v
  | .symbol d o, x => x = ν d + o

/-- The value lies on the inner side of the boundary. An unknown one only excludes what is no small integer. -/
def Side.Holds (ν : InstId → Int) : Side → Boundary → Int → Prop
  | .lower, .unknown, x => Word.smiMin ≤ x
  | .lower, .constant v, x => v ≤ x
  | .lower, .symbol d o, x => ν d + o ≤ x
  | .upper, .unknown, x => x ≤ Word.smiMax
  | .upper, .constant v, x => x ≤ v
  | .upper, .symbol d o, x => x ≤ ν d + o

/-- The definitions have values that agree with their instructions and their ranges. -/
structure Valuation (g : FlowGraph) (ν : InstId → Int) : Prop where
  smi : ∀ d, Word.IsSmi (ν d)
  ranges : ∀ d r, g.range d = .ok (some r) → ∀ s : Side, s.Holds ν (s.pick r) (ν d)
  constants : ∀ d v, g.smiConstantOf d = .ok (some v) → ν d = v
  constraints : ∀ d r inputs a, g.inst d = .ok (.constraint r inputs) → itemAt inputs 0 = .ok a → ν d = ν a
  sums : ∀ d l r o, g.inst d = .ok (.binaryOp .binarySmiOp .add l r o) → ν d = ν l + ν r
  differences : ∀ d l r o, g.inst d = .ok (.binaryOp .binarySmiOp .sub l r o) → ν d = ν l - ν r

/-- The definitions have small integers for values, which lie in their ranges. -/
structure Respects (g : FlowGraph) (ν : InstId → Int) : Prop where
  smi : ∀ d, Word.IsSmi (ν d)
  ranges : ∀ d r, g.range d = .ok (some r) → ∀ s : Side, s.Holds ν (s.pick r) (ν d)

theorem Valuation.respects (h : Valuation g ν) : Respects g ν := ⟨h.smi, h.ranges⟩

/-- The symbol of the boundary, if it has one, is one of those. -/
def SymbolIn (P : InstId → Prop) (b : Boundary) : Prop := ∀ p o, b = .symbol p o → P p

/-- The same for some definitions, to which the symbols of their ranges belong. -/
structure RespectsOn (g : FlowGraph) (ν : InstId → Int) (P : InstId → Prop) : Prop where
  smi : ∀ d, P d → Word.IsSmi (ν d)
  ranges : ∀ d, P d → ∀ r, g.range d = .ok (some r) → ∀ s : Side,
    s.Holds ν (s.pick r) (ν d) ∧ SymbolIn P (s.pick r)

theorem Respects.on (h : Respects g ν) : RespectsOn g ν fun _ => True :=
  ⟨fun d _ => h.smi d, fun d _ r hr s => ⟨h.ranges d r hr s, fun _ _ _ => trivial⟩⟩

/-- The analysis takes the two definitions for the same, by their instructions. -/
def TakenForSame (g : FlowGraph) (a b : InstId) : Prop :=
  ∃ d e k, g.inst a = .ok d ∧ g.inst b = .ok e ∧ d.affectedBySideEffect = .ok false ∧ d.valueKey = .ok k ∧
    e.valueKey = .ok k

/-- Definitions are taken for the same that have different values. -/
def Confused (g : FlowGraph) (ν : InstId → Int) : Prop := ∃ a b, TakenForSame g a b ∧ ν a ≠ ν b

/-! ## Resolving -/

theorem Side.Holds.of_denotes (h : Denotes ν b x) : s.Holds ν b x := by
  cases s <;> cases b <;> simp_all [Denotes, Side.Holds]

theorem Side.holds_limit (hx : Word.IsSmi x) : s.Holds ν s.limit x := by
  cases s
  · exact hx.1
  · exact hx.2

theorem Side.holds_overflow (hx : Word.IsSmi x) : s.Holds ν s.overflow x := by
  obtain ⟨hlo, hhi⟩ := hx
  cases s <;> simp only [Side.overflow, Boundary.overflowedMinSmi, Boundary.overflowedMaxSmi, Side.Holds] <;> omega

theorem holds_boundaryOf (h : RespectsOn g ν P) (hd : P d) (hb : boundaryOf g s d = .ok b) :
    s.Holds ν b (ν d) ∧ SymbolIn P b := by
  unfold boundaryOf at hb
  obtain ⟨r, hr, hb⟩ := bind_eq_ok.mp hb
  cases r with
  | none =>
    obtain rfl := pure_eq_ok.mp hb
    refine ⟨Side.holds_limit (h.smi d hd), ?_⟩
    cases s <;> rintro _ _ ⟨⟩
  | some r =>
    obtain rfl := pure_eq_ok.mp hb
    exact h.ranges d hd r hr s

theorem Side.Holds.trans {o y : Int} (h : s.Holds ν (.symbol d o) y) (hb : s.Holds ν b (ν d)) :
    s.Holds ν b (y - o) := by
  cases s <;> cases b <;> simp only [Side.Holds] at h hb ⊢ <;> omega

/-- Resolving ends with a constant, which is a boundary too unless the way to it was too long or led out of the small
integers. -/
theorem holds_resolveWithin (h : RespectsOn g ν P) {depth : Nat} {offset : Int} (hb : s.Holds ν b (x - offset))
    (hwithin : SymbolIn P b) (hrun : resolveWithin g s depth offset b = .ok b') :
    (s.Holds ν b' x ∨ b' = s.limit ∨ b' = s.overflow) ∧ ∃ v, b' = .constant v := by
  have hlimit : ∃ v, s.limit = .constant v := by cases s <;> exact ⟨_, rfl⟩
  have hoverflow : ∃ v, s.overflow = .constant v := by cases s <;> exact ⟨_, rfl⟩
  induction depth generalizing offset b with
  | zero =>
    obtain rfl := pure_eq_ok.mp hrun
    exact ⟨.inr (.inl rfl), hlimit⟩
  | succ depth ih =>
    unfold resolveWithin at hrun
    cases b with
    | constant v =>
      obtain rfl := pure_eq_ok.mp hrun
      unfold Boundary.orOverflow
      split
      case isTrue hzero =>
        rw [hzero, Int.sub_zero] at hb
        exact ⟨.inl hb, _, rfl⟩
      · split
        · refine ⟨.inl ?_, _, rfl⟩
          cases s <;> simp only [Side.Holds] at hb ⊢ <;> omega
        · exact ⟨.inr (.inr rfl), hoverflow⟩
    | unknown =>
      refine ih (b := s.limit) ?_ ?_ hrun
      · cases s <;> exact hb
      · cases s <;> rintro _ _ ⟨⟩
    | symbol d o =>
      dsimp only at hrun
      split at hrun
      case h_1 sum hsum =>
        obtain ⟨hsum, -⟩ : sum = offset + o ∧ _ := by
          unfold Word.add? Word.check at hsum
          split at hsum
          case isTrue hfits => exact ⟨(Option.some_inj.mp hsum).symm, hfits⟩
          · cases hsum
        obtain ⟨b₁, hb₁, hrun⟩ := bind_eq_ok.mp hrun
        obtain ⟨hd, hwithin'⟩ := holds_boundaryOf h (hwithin d o rfl) hb₁
        refine ih ?_ hwithin' hrun
        have hnext := hb.trans hd
        rwa [hsum, show x - (offset + o) = x - offset - o by omega]
      case h_2 =>
        obtain rfl := pure_eq_ok.mp hrun
        exact ⟨.inr (.inr rfl), hoverflow⟩

theorem holds_resolve_of_within (h : RespectsOn g ν P) (hx : Word.IsSmi x) (hb : s.Holds ν b x)
    (hwithin : SymbolIn P b) (hrun : resolve g s b = .ok b') : s.Holds ν b' x := by
  obtain hb' | rfl | rfl := (holds_resolveWithin h (by simpa using hb) hwithin hrun).1
  · exact hb'
  · exact Side.holds_limit hx
  · exact Side.holds_overflow hx

theorem holds_resolve (h : Respects g ν) (hx : Word.IsSmi x) (hb : s.Holds ν b x) (hrun : resolve g s b = .ok b') :
    s.Holds ν b' x := holds_resolve_of_within h.on hx hb (fun _ _ _ => trivial) hrun

theorem le_of_resolve (h : Respects g ν) {v : Int} (hb : Denotes ν b L)
    (hrun : resolve g .lower b = .ok (.constant v)) : v ≤ L ∨ v ≤ Word.smiMin := by
  have hlower : Side.lower.Holds ν b (L - 0) := by simpa using Side.Holds.of_denotes hb
  obtain hv | hv | hv := (holds_resolveWithin h.on hlower (fun _ _ _ => trivial) hrun).1
  · exact .inl hv
  · obtain rfl : v = Word.smiMin := by simpa [Side.limit, Boundary.minSmi] using hv
    exact .inr (Int.le_refl _)
  · obtain rfl : v = Word.smiMin - 1 := by simpa [Side.overflow, Boundary.overflowedMinSmi] using hv
    exact .inr (by omega)

/-! ## Folding and expanding -/

theorem eq_unwrap (h : Valuation g ν) {e : InstId} (hrun : unwrap g d = .ok e) : ν d = ν e := by
  unfold unwrap at hrun
  generalize maxDepth = depth at hrun
  induction depth generalizing d with
  | zero => rw [pure_eq_ok.mp hrun]
  | succ depth ih =>
    unfold unwrapWithin at hrun
    obtain ⟨i, hi, hrun⟩ := bind_eq_ok.mp hrun
    split at hrun
    case h_1 r inputs =>
      obtain ⟨a, ha, hrun⟩ := bind_eq_ok.mp hrun
      rw [h.constraints d r inputs a hi ha, ih hrun]
    case h_2 => rw [pure_eq_ok.mp hrun]

theorem eq_of_sameSymbol (h : Valuation g ν) (hrun : sameSymbol g b b' = .ok true) :
    ∃ p q, b = .symbol p b.offset ∧ b' = .symbol q b'.offset ∧ (ν p = ν q ∨ Confused g ν) := by
  unfold sameSymbol at hrun
  cases b <;> cases b' <;> simp only [Boundary.symbol?] at hrun <;> try cases hrun
  case symbol.symbol p o q o' =>
    refine ⟨p, q, rfl, rfl, ?_⟩
    unfold sameDefinition at hrun
    obtain ⟨p', hp, hrun⟩ := bind_eq_ok.mp hrun
    obtain ⟨q', hq, hrun⟩ := bind_eq_ok.mp hrun
    rw [eq_unwrap h hp, eq_unwrap h hq]
    split at hrun
    case isTrue heq => exact .inl (by rw [heq])
    case isFalse =>
      obtain ⟨d, hd, hrun⟩ := bind_eq_ok.mp hrun
      obtain ⟨affected, haffected, hrun⟩ := bind_eq_ok.mp hrun
      split at hrun
      · cases pure_eq_ok.mp hrun
      case isFalse hno =>
        obtain ⟨k, hk, hrun⟩ := bind_eq_ok.mp hrun
        obtain ⟨e, he, hrun⟩ := bind_eq_ok.mp hrun
        obtain ⟨k', hk', hrun⟩ := bind_eq_ok.mp hrun
        obtain rfl : k = k' := beq_iff_eq.mp (pure_eq_ok.mp hrun)
        obtain rfl : affected = false := by simpa using hno
        rw [or_iff_not_imp_left]
        exact fun hne => ⟨p', q', ⟨d, e, k, hd, he, haffected, hk, hk'⟩, hne⟩

theorem eq_symbolStep (h : Valuation g ν) {e : InstId} {delta : Int} (hrun : symbolStep? g d = .ok (some (e, delta))) :
    ν d = ν e + delta := by
  unfold symbolStep? at hrun
  obtain ⟨i, hi, hrun⟩ := bind_eq_ok.mp hrun
  split at hrun
  case h_1 r inputs =>
    obtain ⟨a, ha, hrun⟩ := bind_eq_ok.mp hrun
    obtain ⟨rfl, rfl⟩ : a = e ∧ 0 = delta := by simpa using pure_eq_ok.mp hrun
    rw [h.constraints d r inputs a hi ha, Int.add_zero]
  case h_2 l r o =>
    obtain ⟨left, hleft, hrun₁⟩ := bind_eq_ok.mp hrun
    obtain ⟨right, hright, hrun₂⟩ := bind_eq_ok.mp hrun₁
    have hsum := h.sums d l r o hi
    cases right with
    | some c =>
      obtain ⟨rfl, rfl⟩ : l = e ∧ c = delta := by simpa using pure_eq_ok.mp hrun₂
      rw [hsum, h.constants r c hright]
    | none =>
      cases left with
      | none => cases pure_eq_ok.mp hrun₂
      | some c =>
        obtain ⟨rfl, rfl⟩ : r = e ∧ c = delta := by simpa using pure_eq_ok.mp hrun₂
        rw [hsum, h.constants l c hleft, Int.add_comm]
  case h_3 l r o =>
    obtain ⟨c, hc, hrun⟩ := bind_eq_ok.mp hrun
    cases c with
    | none => cases pure_eq_ok.mp hrun
    | some c =>
      obtain ⟨v, hv, hrun⟩ := bind_eq_ok.mp hrun
      obtain ⟨rfl, rfl⟩ : l = e ∧ v = delta := by simpa using pure_eq_ok.mp hrun
      have hneg : v = -c := by
        have hv := orFault_eq_ok.mp hv
        unfold Word.check at hv
        split at hv
        · exact (Option.some_inj.mp hv).symm
        · cases hv
      rw [h.differences d l r o hi, h.constants r c hc, hneg, Int.sub_eq_add_neg]
  case h_4 => cases pure_eq_ok.mp hrun

/-- A boundary of the same number: an offset of a symbol, or a constant that stops at the ends of the word. -/
def Folded (ν : InstId → Int) (y : Int) (b : Boundary) : Prop :=
  (∃ v o, b = .constant (Word.addSaturating v o) ∧ v + o = y) ∨ ∃ p o, b = .symbol p o ∧ ν p + o = y

theorem folded_ofDefinition (h : Valuation g ν) {offset : Int} (hrun : ofDefinition g d offset = .ok b) :
    Folded ν (ν d + offset) b := by
  unfold ofDefinition at hrun
  obtain ⟨c, hc, hrun⟩ := bind_eq_ok.mp hrun
  cases c with
  | none =>
    obtain rfl := pure_eq_ok.mp hrun
    exact .inr ⟨d, offset, rfl, rfl⟩
  | some v =>
    obtain rfl := pure_eq_ok.mp hrun
    exact .inl ⟨v, offset, rfl, by rw [h.constants d v hc]⟩

theorem folded_foldWithin (h : Valuation g ν) {overflow : Boundary} {depth : Nat} {offset : Int}
    (hrun : foldWithin g overflow depth d offset = .ok b) : b = overflow ∨ Folded ν (ν d + offset) b := by
  induction depth generalizing d offset with
  | zero => exact .inr (folded_ofDefinition h hrun)
  | succ depth ih =>
    unfold foldWithin at hrun
    obtain ⟨step, hstep, hrun⟩ := bind_eq_ok.mp hrun
    split at hrun
    case h_1 => exact .inr (folded_ofDefinition h hrun)
    case h_2 next delta =>
      split at hrun
      case isFalse => exact .inl (pure_eq_ok.mp hrun).symm
      case isTrue =>
        have hnext := ih hrun
        rwa [show ν next + (offset + delta) = ν d + offset by rw [eq_symbolStep h hstep]; omega] at hnext

theorem Side.Holds.folded (hx : Word.IsSmi x) {offset : Int} (hb : s.Holds ν (.symbol d offset) x)
    (hfolded : Folded ν (ν d + offset) b) : s.Holds ν b x := by
  obtain ⟨v, o, rfl, hsum⟩ | ⟨p, o, rfl, hsum⟩ := hfolded
  · obtain ⟨hlo, hhi⟩ := hx
    unfold Word.smiMin at hlo
    unfold Word.smiMax at hhi
    cases s <;> simp only [Side.Holds, Word.addSaturating, Word.least, Word.greatest] at hb ⊢ <;> omega
  · cases s <;> simp only [Side.Holds] at hb ⊢ <;> omega

theorem holds_fold (h : Valuation g ν) (hx : Word.IsSmi x) (hb : s.Holds ν b x) (hrun : fold g s b = .ok b') :
    s.Holds ν b' x := by
  unfold fold at hrun
  split at hrun
  case h_1 d offset =>
    obtain rfl | hfolded := folded_foldWithin h hrun
    · exact Side.holds_overflow hx
    · exact hb.folded hx hfolded
  case h_2 =>
    obtain rfl := pure_eq_ok.mp hrun
    exact hb

/-! ## Aligning

Constants are never aligned, so that only what a boundary says as an offset of a symbol counts here.
-/

/-- If it is an offset of a symbol, the boundary is one of the value. -/
def Side.HoldsAt (ν : InstId → Int) (s : Side) (b : Boundary) (x : Int) : Prop :=
  ∀ p o, b = .symbol p o → s.Holds ν (.symbol p o) x

theorem Side.Holds.at (h : s.Holds ν b x) : s.HoldsAt ν b x := by
  rintro p o rfl
  exact h

theorem Side.holdsAt_overflow {t : Side} : s.HoldsAt ν t.overflow x := by
  intro p o heq
  cases t <;> cases heq

theorem Side.HoldsAt.fold (h : Valuation g ν) {t : Side} (hb : s.HoldsAt ν b x) (hrun : fold g t b = .ok b') :
    s.HoldsAt ν b' x := by
  unfold Ranges.fold at hrun
  split at hrun
  case h_1 d offset =>
    obtain rfl | ⟨v, o, rfl, -⟩ | ⟨p, o, rfl, hsum⟩ := folded_foldWithin h hrun
    · exact Side.holdsAt_overflow
    · rintro _ _ ⟨⟩
    · rintro _ _ ⟨⟩
      have hb := hb d offset rfl
      cases s <;> simp only [Side.Holds] at hb ⊢ <;> omega
  case h_2 =>
    obtain rfl := pure_eq_ok.mp hrun
    exact hb

theorem Side.HoldsAt.expand (h : Valuation g ν) (hb : s.HoldsAt ν b x) (hrun : expand? g s b = .ok (some b')) :
    s.HoldsAt ν b' x := by
  unfold expand? at hrun
  split at hrun
  case h_2 => cases pure_eq_ok.mp hrun
  case h_1 d offset =>
    obtain ⟨r, hr, hrun⟩ := bind_eq_ok.mp hrun
    split at hrun
    case h_2 => cases pure_eq_ok.mp hrun
    case h_1 next o hpick =>
      obtain ⟨r, rfl, hnext⟩ := Option.map_eq_some_iff.mp hpick
      have hrange := h.ranges d r hr s
      rw [hnext] at hrange
      split at hrun
      case isTrue =>
        obtain ⟨b₁, hb₁, hrun⟩ := bind_eq_ok.mp hrun
        obtain rfl : b₁ = b' := by simpa using pure_eq_ok.mp hrun
        refine Side.HoldsAt.fold h ?_ hb₁
        rintro _ _ ⟨⟩
        have hb := hb d offset rfl
        cases s <;> simp only [Side.Holds] at hb hrange ⊢ <;> omega
      case isFalse =>
        obtain rfl : s.overflow = b' := by simpa using pure_eq_ok.mp hrun
        exact Side.holdsAt_overflow

/-- Two boundaries of different numbers that are brought to the same symbol stay boundaries of their numbers. -/
theorem holdsAt_alignWithin (h : Valuation g ν) {t : Side} {a c a' c' : Boundary} {y : Int} {depth : Nat}
    (ha : s.HoldsAt ν a x) (hc : t.HoldsAt ν c y) (hrun : alignWithin g s t depth a c = .ok (some (a', c'))) :
    s.HoldsAt ν a' x ∧ t.HoldsAt ν c' y ∧ sameSymbol g a' c' = .ok true := by
  induction depth generalizing a c with
  | zero => cases pure_eq_ok.mp hrun
  | succ depth ih =>
    unfold alignWithin at hrun
    obtain ⟨same, hsame, hrun⟩ := bind_eq_ok.mp hrun
    split at hrun
    case isTrue hyes =>
      obtain ⟨rfl, rfl⟩ : a = a' ∧ c = c' := by simpa using pure_eq_ok.mp hrun
      exact ⟨ha, hc, hyes ▸ hsame⟩
    case isFalse =>
      obtain ⟨next, hnext, hrun⟩ := bind_eq_ok.mp hrun
      cases next with
      | some a₁ => exact ih (ha.expand h hnext) hc hrun
      | none =>
        obtain ⟨next, hnext, hrun⟩ := bind_eq_ok.mp hrun
        cases next with
        | some c₁ => exact ih ha (hc.expand h hnext) hrun
        | none => cases pure_eq_ok.mp hrun

/-! ## Bounds checks -/

theorem value_eq_ok {v : Int} : b.value = .ok v ↔ b = .constant v := by
  unfold Boundary.value
  rw [orFault_eq_ok]
  cases b <;> simp [Boundary.value?]

/-- An index that is found to lie within an array does, unless definitions are confused. It never is negative. -/
theorem within_or_confused_of_isWithin (h : Valuation g ν) {r : Range} {length : Boundary} (hx : Word.IsSmi x)
    (hmin : Side.lower.Holds ν r.min x) (hmax : Side.upper.Holds ν r.max x) (hlength : Denotes ν length L)
    (hrun : isWithin g r length = .ok true) : 0 ≤ x ∧ (x < L ∨ Confused g ν) := by
  unfold isWithin at hrun
  obtain ⟨_, hlo, hrun₁⟩ := bind_eq_ok.mp hrun
  obtain ⟨lo, hvalue, hrun₂⟩ := bind_eq_ok.mp hrun₁
  obtain rfl := value_eq_ok.mp hvalue
  have hlow : lo ≤ x := holds_resolve (s := .lower) h.respects hx hmin hlo
  split at hrun₂
  · cases pure_eq_ok.mp hrun₂
  case isFalse hpos =>
    refine ⟨by omega, ?_⟩
    obtain ⟨max, hfold, hrun₃⟩ := bind_eq_ok.mp hrun₂
    have hmax' : Side.upper.Holds ν max x := holds_fold h hx hmax hfold
    split at hrun₃
    · cases pure_eq_ok.mp hrun₃
    obtain ⟨_, hhi, hrun₄⟩ := bind_eq_ok.mp hrun₃
    obtain ⟨hi, hvalue, hrun₅⟩ := bind_eq_ok.mp hrun₄
    obtain rfl := value_eq_ok.mp hvalue
    obtain ⟨_, hleast, hrun₆⟩ := bind_eq_ok.mp hrun₅
    obtain ⟨least, hvalue, hrun₇⟩ := bind_eq_ok.mp hrun₆
    obtain rfl := value_eq_ok.mp hvalue
    have hupper : x ≤ hi := holds_resolve (s := .upper) h.respects hx hmax' hhi
    split at hrun₇
    case isTrue hlt =>
      -- Nothing is less than the least small integer.
      obtain hleast | hleast := le_of_resolve h.respects hlength hleast
      · exact .inl (by omega)
      · have := hx.1
        omega
    case isFalse =>
      obtain ⟨folded, hfolded, hrun₈⟩ := bind_eq_ok.mp hrun₇
      split at hrun₈
      · cases pure_eq_ok.mp hrun₈
      obtain ⟨aligned, haligned, hrun₉⟩ := bind_eq_ok.mp hrun₈
      cases aligned with
      | none => cases pure_eq_ok.mp hrun₉
      | some pair =>
        obtain ⟨a, c⟩ := pair
        have hlower : Side.lower.HoldsAt ν folded L :=
          Side.HoldsAt.fold h (Side.Holds.of_denotes (s := .lower) hlength).at hfolded
        obtain ⟨ha, hc, hsame⟩ := holdsAt_alignWithin h hmax'.at hlower haligned
        obtain ⟨p, q, hp, hq, heq⟩ := eq_of_sameSymbol h hsame
        refine heq.imp_left fun heq => ?_
        have hlt : a.offset < c.offset := by simpa using pure_eq_ok.mp hrun₉
        have ha : x ≤ ν p + a.offset := ha p a.offset hp
        have hc : ν q + c.offset ≤ L := hc q c.offset hq
        omega

/-- A check that is found to be redundant is one of an index whose range is found to lie within the array. -/
theorem within_of_isRedundant {check : InstId} {length : Boundary} (hrun : isRedundant g check length = .ok true) :
    ∃ cls array index r, g.inst check = .ok (.checkArrayBound cls array index) ∧ g.range index = .ok (some r) ∧
      isWithin g r length = .ok true := by
  unfold isRedundant at hrun
  obtain ⟨d, hd, hrun⟩ := bind_eq_ok.mp hrun
  split at hrun
  case h_2 => cases pure_eq_ok.mp hrun
  case h_1 cls array index =>
    split at hrun
    · cases pure_eq_ok.mp hrun
    · obtain ⟨r, hr, hrun⟩ := bind_eq_ok.mp hrun
      cases r with
      | none => cases pure_eq_ok.mp hrun
      | some r => exact ⟨cls, array, index, r, hd, hr, hrun⟩

/-- An array of unknown length and an index that is less than it, both parameters, and a check of the index. -/
def indexBelowLength : FlowGraph :=
  { FlowGraph.new "f" 2 0 with
    nodes := #[{ inst := .parameter 0 }, { inst := .parameter 1, range := some ⟨.constant 0, .symbol ⟨0⟩ (-1)⟩ },
      { inst := .checkArrayBound .array ⟨0⟩ ⟨1⟩ }] }

def twoAndOne (d : InstId) : Int := if d.index = 0 then 2 else if d.index = 1 then 1 else 0

theorem inst_indexBelowLength {i : Inst} (h : indexBelowLength.inst d = .ok i) :
    (∃ k, i = .parameter k) ∨ i = .checkArrayBound .array ⟨0⟩ ⟨1⟩ ∧ d.index = 2 := by
  obtain ⟨k⟩ := d
  match k with
  | 0 | 1 =>
    obtain rfl := Except.ok.inj h
    exact .inl ⟨_, rfl⟩
  | 2 =>
    obtain rfl := Except.ok.inj h
    exact .inr ⟨rfl, rfl⟩
  | k + 3 => cases h

theorem valuation_indexBelowLength : Valuation indexBelowLength twoAndOne where
  smi d := by
    unfold twoAndOne
    split
    · decide
    · split <;> decide
  ranges d r hr s := by
    obtain ⟨k⟩ := d
    match k with
    | 0 | 2 => cases Except.ok.inj hr
    | 1 =>
      obtain rfl := Option.some_inj.mp (Except.ok.inj hr)
      cases s <;> simp [Side.Holds, Side.pick, twoAndOne]
    | k + 3 => cases hr
  constants d v hv := by
    obtain ⟨k⟩ := d
    match k with
    | 0 | 1 | 2 => cases Except.ok.inj hv
    | k + 3 => cases hv
  constraints d r inputs a hi := by obtain ⟨k, hk⟩ | ⟨hk, -⟩ := inst_indexBelowLength hi <;> cases hk
  sums d l r o hi := by obtain ⟨k, hk⟩ | ⟨hk, -⟩ := inst_indexBelowLength hi <;> cases hk
  differences d l r o hi := by obtain ⟨k, hk⟩ | ⟨hk, -⟩ := inst_indexBelowLength hi <;> cases hk

end Midend.Ranges
