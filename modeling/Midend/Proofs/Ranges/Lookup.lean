import Mathlib.Data.List.Perm.Subperm
import Midend.Proofs.Outcome
import Midend.Proofs.Ranges.Arithmetic
import Midend.Proofs.Ranges.Redundancy
import Midend.Ranges

/-! # Looking up

Whatever is computed from boundaries looks up instructions, constants and ranges. Where a set of definitions has
everything that its members refer to, each of these computations comes to its end, and the symbols in its result are in
the set again.
-/

namespace Midend.Ranges

open FlowGraph

variable {g : FlowGraph} {P : InstId → Prop} {s t : Side} {a b : Boundary} {d e : InstId} {i : Inst}
  {constraint : Range} {value : Option Range}

/-! ## Symbols -/

theorem symbolIn_symbol {o : Int} (h : P d) : SymbolIn P (.symbol d o) := by
  rintro _ _ ⟨⟩
  exact h

theorem symbolIn_constant {v : Int} : SymbolIn P (.constant v) := by
  rintro _ _ ⟨⟩

theorem symbolIn_unknown : SymbolIn P .unknown := by
  rintro _ _ ⟨⟩

theorem symbolIn_limit : SymbolIn P s.limit := by cases s <;> exact symbolIn_constant

theorem symbolIn_overflow : SymbolIn P s.overflow := by cases s <;> exact symbolIn_constant

theorem symbolIn_clamp (h : SymbolIn P b) : SymbolIn P b.clamp := by
  cases b with
  | constant v =>
    unfold Boundary.clamp
    dsimp only
    split
    · exact symbolIn_constant
    · split <;> exact symbolIn_constant
  | _ => exact h

def RangeIn (P : InstId → Prop) (r : Range) : Prop := ∀ s : Side, SymbolIn P (s.pick r)

theorem RangeIn.mono {P' : InstId → Prop} {r : Range} (h : RangeIn P r) (himp : ∀ d, P d → P' d) : RangeIn P' r :=
  fun s p o heq => himp p (h s p o heq)

theorem rangeIn_mk (ha : SymbolIn P a) (hb : SymbolIn P b) : RangeIn P ⟨a, b⟩ := by
  intro s
  cases s
  · exact ha
  · exact hb

theorem rangeIn_between {lo hi : Int} : RangeIn P (.between lo hi) := rangeIn_mk symbolIn_constant symbolIn_constant

theorem rangeIn_unknown : RangeIn P .unknown := rangeIn_between

/-! ## Sets with all that is looked up -/

/-- The blocks of members exist. -/
def Charted (g : FlowGraph) (P : InstId → Prop) : Prop :=
  ∀ d n b, P d → g.nodes[d.index]? = some n → n.block = some b → ∃ k, g.block b = .ok k

/-- The operands of members and the symbols of their ranges are members, constraints have a value, class checks know the
classes of their receivers, and constants are small. -/
structure SelfContained (g : FlowGraph) (P : InstId → Prop) : Prop where
  listed : ∀ d, P d → ∃ i, g.inst d = .ok i
  args : ∀ d i, P d → g.inst d = .ok i → ∀ a ∈ i.args, P a
  values : ∀ d r inputs, P d → g.inst d = .ok (.constraint r inputs) → inputs ≠ []
  receivers : ∀ d ic a, P d → g.inst d = .ok (.checkClass ic a) → ∀ o ∈ ic.checks, o.classes ≠ []
  symbols : ∀ d r, P d → g.range d = .ok (some r) → RangeIn P r
  smis : ∀ d c, P d → g.smiConstantOf d = .ok (some c) → Word.IsSmi c

theorem exists_receiver {o : Observation} (ho : o.classes ≠ []) : ∃ c, o.receiver = .ok c := by
  obtain ⟨c, rest, hclasses⟩ := List.exists_cons_of_ne_nil ho
  exact ⟨c, by rw [Observation.receiver, Observation.classAt, hclasses]; rfl⟩

theorem receivers_ok {ic : InlineCache} (hchecks : ∀ o ∈ ic.checks, o.classes ≠ []) :
    ∃ receivers, ic.checks.mapM (·.receiver) = .ok receivers :=
  exists_mapM fun o ho => exists_receiver (hchecks o ho)

theorem check_neg {c : Int} (hc : Word.IsSmi c) : Word.check (-c) = some (-c) := by
  obtain ⟨hlo, hhi⟩ := hc
  unfold Word.smiMin at hlo
  unfold Word.smiMax at hhi
  exact if_pos ⟨by unfold Word.least; omega, by unfold Word.greatest; omega⟩

namespace SelfContained

variable (hg : SelfContained g P)

include hg

theorem inst (hd : P d) : Yields False (g.inst d) fun i => g.inst d = .ok i :=
  .of_ok_or (.inr (hg.listed d hd)) fun _ hi => hi

theorem range (hd : P d) : Yields False (g.range d) fun r => g.range d = .ok r := by
  obtain ⟨i, hi⟩ := hg.listed d hd
  exact .of_ok_or (.inr (range_ok hi)) fun _ hr => hr

theorem smiConstantOf (hd : P d) : Yields False (g.smiConstantOf d) fun c => g.smiConstantOf d = .ok c := by
  obtain ⟨i, hi⟩ := hg.listed d hd
  refine .of_ok_or (.inr ⟨i.constant?.bind Constant.smi?, ?_⟩) fun _ hc => hc
  unfold FlowGraph.smiConstantOf FlowGraph.constantOf
  rw [hi]
  rfl

theorem affected (hd : P d) (hi : g.inst d = .ok i) : Yields False i.affectedBySideEffect fun _ => True := by
  cases i with
  | checkClass ic a =>
    obtain ⟨receivers, hreceivers⟩ := receivers_ok (hg.receivers d ic a hd hi)
    unfold Inst.affectedBySideEffect
    dsimp only
    rw [InlineCache.hasReceiver_of_receivers hreceivers, InlineCache.hasReceiver_of_receivers hreceivers]
    dsimp only [bind, Except.bind, pure, Except.pure]
    split <;> trivial
  | _ => trivial

theorem valueKey (hd : P d) (hi : g.inst d = .ok i) : Yields False i.valueKey fun _ => True := by
  cases i with
  | checkClass ic a =>
    obtain ⟨receivers, hreceivers⟩ := receivers_ok (hg.receivers d ic a hd hi)
    unfold Inst.valueKey Inst.valueMark
    dsimp only
    rw [hreceivers]
    trivial
  | _ => trivial

theorem input {r : Range} {inputs : List InstId} (hd : P d) (hi : g.inst d = .ok (.constraint r inputs)) :
    Yields False (itemAt inputs 0) P := by
  obtain ⟨a, rest, rfl⟩ := List.exists_cons_of_ne_nil (hg.values d r inputs hd hi)
  exact hg.args d _ hd hi a List.mem_cons_self

theorem unwrap (hd : P d) : Yields False (unwrap g d) P := by
  unfold Ranges.unwrap
  generalize maxDepth = depth
  induction depth generalizing d with
  | zero => exact hd
  | succ depth ih =>
    unfold unwrapWithin
    rw [Yields.bind_iff]
    refine (hg.inst hd).mono fun i _ hi => ?_
    cases i with
    | constraint r inputs =>
      dsimp only
      rw [Yields.bind_iff]
      exact (hg.input hd hi).mono fun a _ ha => ih ha
    | _ => exact hd

theorem sameDefinition (hd : P d) (he : P e) : Yields False (sameDefinition g d e) fun _ => True := by
  unfold Ranges.sameDefinition
  rw [Yields.bind_iff]
  refine (hg.unwrap hd).mono fun d' _ hd' => ?_
  rw [Yields.bind_iff]
  refine (hg.unwrap he).mono fun e' _ he' => ?_
  split
  · trivial
  rw [Yields.bind_iff]
  refine (hg.inst hd').mono fun i _ hi => ?_
  rw [Yields.bind_iff]
  refine (hg.affected hd' hi).mono fun affected _ _ => ?_
  split
  · trivial
  rw [Yields.bind_iff]
  refine (hg.valueKey hd' hi).mono fun key _ _ => ?_
  rw [Yields.bind_iff]
  refine (hg.inst he').mono fun j _ hj => ?_
  rw [Yields.bind_iff]
  exact (hg.valueKey he' hj).mono fun _ _ _ => trivial

theorem sameSymbol (ha : SymbolIn P a) (hb : SymbolIn P b) : Yields False (sameSymbol g a b) fun _ => True := by
  cases a with
  | symbol p o =>
    cases b with
    | symbol q o' => exact hg.sameDefinition (ha p o rfl) (hb q o' rfl)
    | _ => trivial
  | _ => trivial

theorem sameBoundary (ha : SymbolIn P a) (hb : SymbolIn P b) : Yields False (sameBoundary g a b) fun _ => True := by
  cases a with
  | symbol p o =>
    cases b with
    | symbol q o' =>
      unfold Ranges.sameBoundary
      dsimp only
      split
      · exact hg.sameSymbol ha hb
      · trivial
    | _ => trivial
  | _ => cases b <;> trivial

/-! ## Folding and expanding -/

theorem ofDefinition {offset : Int} (hd : P d) : Yields False (ofDefinition g d offset) (SymbolIn P) := by
  unfold Ranges.ofDefinition
  rw [Yields.bind_iff]
  refine (hg.smiConstantOf hd).mono fun c _ _ => ?_
  cases c with
  | none => exact symbolIn_symbol hd
  | some v => exact symbolIn_constant

theorem symbolStep (hd : P d) :
    Yields False (symbolStep? g d) fun step => ∀ next, step = some next → P next.1 := by
  unfold symbolStep?
  rw [Yields.bind_iff]
  refine (hg.inst hd).mono fun i _ hi => ?_
  have hargs := hg.args d i hd hi
  split
  case h_1 r inputs =>
    rw [Yields.bind_iff]
    refine (hg.input hd hi).mono fun a _ ha => ?_
    rintro _ ⟨⟩
    exact ha
  case h_2 l r _ _ =>
    have hl : P l := hargs l (by simp [Inst.args])
    have hr : P r := hargs r (by simp [Inst.args])
    rw [Yields.bind_iff]
    refine (hg.smiConstantOf hl).mono fun left _ _ => ?_
    rw [Yields.bind_iff]
    refine (hg.smiConstantOf hr).mono fun right _ _ => ?_
    split
    all_goals rintro _ ⟨⟩
    · exact hl
    · exact hr
  case h_3 l r _ _ =>
    have hr : P r := hargs r (by simp [Inst.args])
    rw [Yields.bind_iff]
    refine (hg.smiConstantOf hr).mono fun right _ hright => ?_
    cases right with
    | none => rintro _ ⟨⟩
    | some c =>
      dsimp only
      rw [check_neg (hg.smis r c hr hright)]
      rintro _ ⟨⟩
      exact hargs l (by simp [Inst.args])
  case h_4 => rintro _ ⟨⟩

theorem foldWithin {depth : Nat} {offset : Int} (hd : P d) :
    Yields False (foldWithin g s.overflow depth d offset) (SymbolIn P) := by
  induction depth generalizing d offset with
  | zero => exact hg.ofDefinition hd
  | succ depth ih =>
    unfold Ranges.foldWithin
    rw [Yields.bind_iff]
    refine (hg.symbolStep hd).mono fun step _ hnext => ?_
    cases step with
    | none => exact hg.ofDefinition hd
    | some next =>
      dsimp only
      split
      · exact ih (hnext next rfl)
      · exact symbolIn_overflow

theorem fold (s : Side) (hb : SymbolIn P b) : Yields False (fold g s b) (SymbolIn P) := by
  cases b with
  | symbol d o => exact hg.foldWithin (hb d o rfl)
  | _ => exact hb

theorem expand (s : Side) (hb : SymbolIn P b) :
    Yields False (expand? g s b) fun next => ∀ b', next = some b' → SymbolIn P b' := by
  cases b with
  | symbol d o =>
    unfold expand?
    dsimp only
    rw [Yields.bind_iff]
    refine (hg.range (hb d o rfl)).mono fun range _ hrange => ?_
    split
    case h_1 p o' hpick =>
      obtain ⟨r, rfl, hsymbol⟩ := Option.map_eq_some_iff.mp hpick
      have hp := hg.symbols d r (hb d o rfl) hrange s p o' hsymbol
      split
      · rw [Yields.bind_iff]
        refine (hg.fold s (symbolIn_symbol (o := o' + o) hp)).mono fun b' _ hb' => ?_
        rintro _ ⟨⟩
        exact hb'
      · rintro _ ⟨⟩
        exact symbolIn_overflow
    case h_2 => rintro _ ⟨⟩
  | _ => rintro _ ⟨⟩

theorem align (s t : Side) (ha : SymbolIn P a) (hb : SymbolIn P b) :
    Yields False (align? g s t a b) fun pair => ∀ p, pair = some p → SymbolIn P p.1 ∧ SymbolIn P p.2 := by
  unfold align?
  generalize maxDepth = depth
  induction depth generalizing a b with
  | zero => rintro _ ⟨⟩
  | succ depth ih =>
    unfold alignWithin
    rw [Yields.bind_iff]
    refine (hg.sameSymbol ha hb).mono fun same _ _ => ?_
    split
    · rintro _ ⟨⟩
      exact ⟨ha, hb⟩
    rw [Yields.bind_iff]
    refine (hg.expand s ha).mono fun next _ hnext => ?_
    cases next with
    | some a' => exact ih (hnext a' rfl) hb
    | none =>
      dsimp only
      rw [Yields.bind_iff]
      refine (hg.expand t hb).mono fun next _ hnext => ?_
      cases next with
      | some b' => exact ih ha (hnext b' rfl)
      | none => rintro _ ⟨⟩

/-! ## Constants that boundaries come to -/

theorem resolveWithin {depth : Nat} {offset : Int} (hb : SymbolIn P b) :
    Yields False (resolveWithin g s depth offset b) fun b' => ∃ v, b' = .constant v := by
  induction depth generalizing offset b with
  | zero => cases s <;> exact ⟨_, rfl⟩
  | succ depth ih =>
    cases b with
    | unknown => exact ih symbolIn_limit
    | constant v =>
      unfold Ranges.resolveWithin Boundary.orOverflow
      dsimp only
      split
      · exact ⟨v, rfl⟩
      · split
        · exact ⟨_, rfl⟩
        · cases s <;> exact ⟨_, rfl⟩
    | symbol d o =>
      unfold Ranges.resolveWithin
      dsimp only
      split
      · rw [Yields.bind_iff]
        unfold boundaryOf
        rw [Yields.bind_iff]
        refine (hg.range (hb d o rfl)).mono fun range _ hrange => ?_
        cases range with
        | none => exact ih symbolIn_limit
        | some r => exact ih (hg.symbols d r (hb d o rfl) hrange s)
      · cases s <;> exact ⟨_, rfl⟩

theorem resolve (s : Side) (hb : SymbolIn P b) : Yields False (resolve g s b) fun b' => ∃ v, b' = .constant v :=
  hg.resolveWithin hb

theorem outermost (s : Side) (hvalue : ∀ r, value = some r → RangeIn P r) :
    Yields False (outermost g s value) fun b => ∃ v, b = .constant v := by
  cases value with
  | none => exact s.exists_limit
  | some r => exact hg.resolve s (hvalue r rfl s)

theorem clampedValue (s : Side) (hb : SymbolIn P b) : Yields False (clampedValue g s b) fun _ => True := by
  unfold Ranges.clampedValue
  rw [Yields.bind_iff]
  refine (hg.resolve s hb).mono fun _ _ ⟨v, hv⟩ => ?_
  subst hv
  unfold Boundary.clamp
  dsimp only
  split
  · trivial
  · split <;> trivial

theorem smaller (ha : SymbolIn P a) (hb : SymbolIn P b) : Yields False (smaller g a b) (SymbolIn P) := by
  unfold Ranges.smaller
  rw [Yields.bind_iff]
  refine (hg.sameSymbol ha hb).mono fun same _ _ => ?_
  split
  · rw [Yields.pure_iff]
    split
    · exact ha
    · exact hb
  rw [Yields.bind_iff]
  refine (hg.clampedValue .lower ha).mono fun _ _ _ => ?_
  rw [Yields.bind_iff]
  exact (hg.clampedValue .lower hb).mono fun _ _ _ => symbolIn_constant

theorem larger (ha : SymbolIn P a) (hb : SymbolIn P b) : Yields False (larger g a b) (SymbolIn P) := by
  unfold Ranges.larger
  rw [Yields.bind_iff]
  refine (hg.sameSymbol ha hb).mono fun same _ _ => ?_
  split
  · rw [Yields.pure_iff]
    split
    · exact ha
    · exact hb
  rw [Yields.bind_iff]
  refine (hg.clampedValue .upper ha).mono fun _ _ _ => ?_
  rw [Yields.bind_iff]
  exact (hg.clampedValue .upper hb).mono fun _ _ _ => symbolIn_constant

/-! ## Constraints -/

theorem tightenConstant (hb : SymbolIn P b) (hvalue : ∀ r, value = some r → RangeIn P r) :
    Yields False (tightenConstant g s b value) (SymbolIn P) := by
  unfold Ranges.tightenConstant
  rw [Yields.bind_iff]
  refine (hg.outermost s hvalue).mono fun _ _ ⟨v, hv⟩ => ?_
  rw [Yields.bind_iff]
  refine (hg.resolve s hb).mono fun _ _ ⟨c, hc⟩ => ?_
  subst hv hc
  cases s with
  | lower => exact hg.larger symbolIn_constant symbolIn_constant
  | upper => exact hg.smaller symbolIn_constant symbolIn_constant

theorem tighten (hb : SymbolIn P b) (hvalue : ∀ r, value = some r → RangeIn P r) :
    Yields False (tighten g s b value) (SymbolIn P) := by
  have hconstant := hg.tightenConstant (s := s) hb hvalue
  unfold Ranges.tighten
  cases value with
  | none =>
    dsimp only [Option.map]
    split
    · exact hconstant
    · exact hb
  | some r =>
    have hv := hvalue r rfl s
    dsimp only [Option.map]
    split
    · exact hb
    split
    · exact hv
    rw [Yields.bind_iff]
    refine (hg.sameBoundary hb hv).mono fun same _ _ => ?_
    split
    · exact hb
    rw [Yields.bind_iff]
    refine (hg.fold s hb).mono fun c _ hc => ?_
    rw [Yields.bind_iff]
    refine (hg.fold s hv).mono fun w _ hw => ?_
    rw [Yields.bind_iff]
    refine (hg.align s s hc hw).mono fun pair _ hpair => ?_
    cases pair with
    | none => exact hconstant
    | some p =>
      obtain ⟨hleft, hright⟩ := hpair p rfl
      dsimp only
      rw [Yields.pure_iff]
      unfold Side.tighter
      cases s <;> dsimp only <;> split <;> assumption

theorem intersect (hconstraint : RangeIn P constraint) (hvalue : ∀ r, value = some r → RangeIn P r) :
    Yields False (intersect g constraint value) (RangeIn P) := by
  unfold Ranges.intersect
  rw [Yields.bind_iff]
  refine (hg.tighten (s := .lower) (hconstraint .lower) hvalue).mono fun min _ hmin => ?_
  rw [Yields.bind_iff]
  exact (hg.tighten (s := .upper) (hconstraint .upper) hvalue).mono fun max _ hmax => rangeIn_mk hmin hmax

/-! ## Phis and arithmetic -/

theorem coverInputs {inputs : List InstId} {seen : Option Range} (hinputs : ∀ d ∈ inputs, P d)
    (hseen : ∀ r, seen = some r → RangeIn P r) : Yields False (coverInputs g inputs seen) (RangeIn P) := by
  induction inputs generalizing seen with
  | nil =>
    cases seen with
    | none => exact rangeIn_unknown
    | some r => exact hseen r rfl
  | cons d rest ih =>
    have hd := hinputs d List.mem_cons_self
    have hrest : ∀ d ∈ rest, P d := fun e he => hinputs e (List.mem_cons_of_mem _ he)
    unfold Ranges.coverInputs
    rw [Yields.bind_iff]
    refine (hg.range hd).mono fun range _ hrange => ?_
    cases range with
    | none => exact rangeIn_unknown
    | some r =>
      have hr : ∀ r', some r = some r' → RangeIn P r' := fun r' heq => hg.symbols d r' hd (heq ▸ hrange)
      dsimp only
      rw [Yields.bind_iff]
      refine (hg.outermost .lower hr).mono fun _ _ ⟨lo, hlo⟩ => ?_
      rw [Yields.bind_iff]
      refine (hg.outermost .upper hr).mono fun _ _ ⟨hi, hhi⟩ => ?_
      subst hlo hhi
      cases seen with
      | none => exact ih hrest fun _ heq => Option.some_inj.mp heq ▸ rangeIn_between
      | some q =>
        dsimp only
        rw [Yields.bind_iff]
        refine (hg.smaller (hseen q rfl .lower) symbolIn_constant).mono fun min _ hmin => ?_
        rw [Yields.bind_iff]
        refine (hg.larger (hseen q rfl .upper) symbolIn_constant).mono fun max _ hmax => ?_
        exact ih hrest fun _ heq => Option.some_inj.mp heq ▸ rangeIn_mk hmin hmax

theorem phiRange (hd : P d) : Yields False (phiRange g d) (RangeIn P) := by
  unfold Ranges.phiRange FlowGraph.args
  rw [Yields.bind_iff, Yields.bind_iff]
  refine (hg.inst hd).mono fun i _ hi => ?_
  exact hg.coverInputs (hg.args d i hd hi) fun _ heq => nomatch heq

theorem addEnd (hleft : SymbolIn P a) {l r : Range} (hl : RangeIn P l) (hr : RangeIn P r) :
    Yields False (addEnd g s a l r) (SymbolIn P) := by
  unfold Ranges.addEnd
  split
  case h_1 b hb =>
    unfold addSymbol? at hb
    have hpick := hr s
    split at hb
    all_goals
      try (rw [Option.ite_none_right_eq_some] at hb; obtain ⟨-, ⟨⟩⟩ := hb)
    case h_1 d o _ _ => exact symbolIn_symbol (hleft d o rfl)
    case h_2 c d o hsum => exact symbolIn_symbol (hpick d o hsum)
    case h_3 => cases hb
  case h_2 =>
    rw [Yields.bind_iff]
    refine (hg.outermost s fun _ heq => Option.some_inj.mp heq ▸ hl).mono fun _ _ ⟨v, hv⟩ => ?_
    rw [Yields.bind_iff]
    refine (hg.outermost s fun _ heq => Option.some_inj.mp heq ▸ hr).mono fun _ _ ⟨w, hw⟩ => ?_
    subst hv hw
    show SymbolIn P (Boundary.orOverflow (v + w) s.overflow)
    unfold Boundary.orOverflow
    split
    · exact symbolIn_constant
    · exact symbolIn_overflow

theorem subEnd (hleft : SymbolIn P a) {l r : Range} (hl : RangeIn P l) (hr : RangeIn P r) :
    Yields False (subEnd g s a l r) (SymbolIn P) := by
  unfold Ranges.subEnd
  split
  case h_1 b hb =>
    unfold subSymbol? at hb
    split at hb
    case h_1 d o _ _ =>
      rw [Option.ite_none_right_eq_some] at hb
      obtain ⟨-, ⟨⟩⟩ := hb
      exact symbolIn_symbol (hleft d o rfl)
    case h_2 => cases hb
  case h_2 =>
    rw [Yields.bind_iff]
    refine (hg.outermost s fun _ heq => Option.some_inj.mp heq ▸ hl).mono fun _ _ ⟨v, hv⟩ => ?_
    rw [Yields.bind_iff]
    refine (hg.outermost s.opposite fun _ heq => Option.some_inj.mp heq ▸ hr).mono fun _ _ ⟨w, hw⟩ => ?_
    subst hv hw
    show SymbolIn P (Boundary.orOverflow (v - w) s.overflow)
    unfold Boundary.orOverflow
    split
    · exact symbolIn_constant
    · exact symbolIn_overflow

theorem outermostValue (s : Side) {r : Range} (hr : RangeIn P r) :
    Yields False (do (← Ranges.outermost g s (some r)).value) fun _ => True := by
  rw [Yields.bind_iff]
  refine (hg.outermost s fun _ heq => Option.some_inj.mp heq ▸ hr).mono fun _ _ ⟨v, hv⟩ => ?_
  subst hv
  trivial

theorem binaryEnds {op : Token} {left l r : Range} (hleft : RangeIn P left) (hl : RangeIn P l) (hr : RangeIn P r) :
    Yields False (binaryEnds g op left l r) fun ends => ∀ e, ends = some e → RangeIn P e := by
  unfold Ranges.binaryEnds
  split
  case h_1 =>
    rw [Yields.bind_iff]
    refine (hg.addEnd (hleft .lower) hl hr).mono fun _ _ hmin => ?_
    rw [Yields.bind_iff]
    refine (hg.addEnd (hleft .upper) hl hr).mono fun _ _ hmax => ?_
    rintro _ ⟨⟩
    exact rangeIn_mk hmin hmax
  case h_2 =>
    rw [Yields.bind_iff]
    refine (hg.subEnd (hleft .lower) hl hr).mono fun _ _ hmin => ?_
    rw [Yields.bind_iff]
    refine (hg.subEnd (hleft .upper) hl hr).mono fun _ _ hmax => ?_
    rintro _ ⟨⟩
    exact rangeIn_mk hmin hmax
  case h_3 =>
    have hmask {q : Range} (hq : RangeIn P q) : Yields False (do
        return some ⟨.constant 0, ← Ranges.outermost g .upper (some q)⟩ : Except Fault (Option Range))
        fun ends => ∀ e, ends = some e → RangeIn P e := by
      rw [Yields.bind_iff]
      refine (hg.outermost .upper fun _ heq => Option.some_inj.mp heq ▸ hq).mono fun _ _ ⟨v, hv⟩ => ?_
      subst hv
      rintro _ ⟨⟩
      exact rangeIn_between
    rw [← bind_assoc, Yields.bind_iff]
    refine (hg.outermostValue .lower hr).mono fun _ _ _ => ?_
    split
    · exact hmask hr
    rw [← bind_assoc, Yields.bind_iff]
    refine (hg.outermostValue .lower hl).mono fun _ _ _ => ?_
    split
    · exact hmask hl
    · rintro _ ⟨⟩
  case h_4 => rintro _ ⟨⟩

theorem isArrayLength (hd : P d) : Yields False (isArrayLength g d) fun _ => True := by
  obtain ⟨i, hi⟩ := hg.listed d hd
  exact .of_ok_or (.inr (isArrayLength_ok hi)) fun _ _ => trivial

theorem binaryRange {op : Token} {l r : InstId} (hl : P l) (hr : P r) :
    Yields False (binaryRange g op l r) fun result => RangeIn P result.1 := by
  unfold Ranges.binaryRange
  rw [Yields.bind_iff]
  refine (hg.range hl).mono fun left _ hleft => ?_
  rw [Yields.bind_iff]
  refine (hg.range hr).mono fun right _ hright => ?_
  split
  case h_1 lr rr _ _ =>
    have hlr := hg.symbols l lr hl hleft
    rw [Yields.bind_iff]
    refine (hg.isArrayLength hl).mono fun isLength _ _ => ?_
    have hbegin : RangeIn P (if isLength then ⟨.symbol l 0, .symbol l 0⟩ else lr) := by
      split
      · exact rangeIn_mk (symbolIn_symbol hl) (symbolIn_symbol hl)
      · exact hlr
    rw [Yields.bind_iff]
    refine (hg.binaryEnds hbegin hlr (hg.symbols r rr hr hright)).mono fun ends _ hends => ?_
    cases ends with
    | none => exact rangeIn_unknown
    | some e =>
      have he := hends e rfl
      dsimp only
      rw [Yields.bind_iff]
      refine (hg.resolve .lower (he .lower)).mono fun _ _ _ => ?_
      rw [Yields.bind_iff]
      refine (hg.resolve .upper (he .upper)).mono fun _ _ _ => ?_
      exact rangeIn_mk (symbolIn_clamp (he .lower)) (symbolIn_clamp (he .upper))
  case h_2 => exact rangeIn_unknown

/-! ## Bounds checks -/

theorem isWithin {index : Range} (hindex : RangeIn P index) (hb : SymbolIn P b) :
    Yields False (isWithin g index b) fun _ => True := by
  have hvalue (s : Side) {c : Boundary} (hc : SymbolIn P c) :
      Yields False (do (← Ranges.resolve g s c).value) fun _ => True := by
    rw [Yields.bind_iff]
    refine (hg.resolve s hc).mono fun _ _ ⟨v, hv⟩ => ?_
    subst hv
    trivial
  unfold Ranges.isWithin
  rw [← bind_assoc, Yields.bind_iff]
  refine (hg.outermostValue .lower hindex).mono fun _ _ _ => ?_
  split
  · trivial
  rw [Yields.bind_iff]
  refine (hg.fold .upper (hindex .upper)).mono fun max _ hmax => ?_
  split
  · trivial
  rw [← bind_assoc, Yields.bind_iff]
  refine (hvalue .upper hmax).mono fun _ _ _ => ?_
  rw [← bind_assoc, Yields.bind_iff]
  refine (hvalue .lower hb).mono fun _ _ _ => ?_
  split
  · trivial
  rw [Yields.bind_iff]
  refine (hg.fold .upper hb).mono fun length _ hlength => ?_
  split
  · trivial
  rw [Yields.bind_iff]
  refine (hg.align .upper .lower hmax hlength).mono fun pair _ _ => ?_
  cases pair <;> trivial

theorem isRedundant (hi : g.inst d = .ok i) (hargs : ∀ a ∈ i.args, P a) (hb : SymbolIn P b) :
    Yields False (isRedundant g d b) fun _ => True := by
  unfold Ranges.isRedundant
  rw [Yields.bind_iff, hi, Yields.ok_iff]
  split
  case h_1 cls array index =>
    have hindex : P index := hargs index (by simp [Inst.args])
    split
    · trivial
    rw [Yields.bind_iff]
    refine (hg.range hindex).mono fun range _ hrange => ?_
    cases range with
    | none => trivial
    | some r => exact hg.isWithin (hg.symbols index r hindex hrange) hb
  case h_2 => trivial

/-! ## Induction variables -/

theorem direction (hd : P d) : Yields False (direction g d) fun _ => True := by
  unfold Ranges.direction
  rw [Yields.bind_iff]
  refine (hg.smiConstantOf hd).mono fun c _ _ => ?_
  cases c with
  | some v => trivial
  | none =>
    dsimp only
    rw [Yields.bind_iff]
    refine (hg.range hd).mono fun range _ hrange => ?_
    cases range with
    | none => trivial
    | some r =>
      have hr := hg.symbols d r hd hrange
      dsimp only
      rw [← bind_assoc, Yields.bind_iff]
      refine (hg.outermostValue .lower hr).mono fun _ _ _ => ?_
      split
      · trivial
      rw [← bind_assoc, Yields.bind_iff]
      refine (hg.outermostValue .upper hr).mono fun _ _ _ => ?_
      split <;> trivial

end SelfContained

namespace Induction

variable {header : BlockId} {v : Induction} {way : Direction} {bound : Nat}

/-- What was seen is in the set, each definition once, and `bound` looks are enough: one for each that waits, and one
for each that is still to be seen. -/
structure Frugal (g : FlowGraph) (P : InstId → Prop) (bound : Nat) (v : Induction) : Prop where
  initial : ∀ i, v.initial = some i → P i
  seen : ∀ d ∈ v.seen, P d
  once : v.seen.Nodup
  waiting : ∀ d ∈ v.waiting, P d
  enough : v.waiting.length + g.nodes.size ≤ bound + v.seen.length

theorem Frugal.turn (h : Frugal g P bound v) : Frugal g P bound { v with direction := way } :=
  ⟨h.initial, h.seen, h.once, h.waiting, h.enough⟩

section

variable (hg : SelfContained g P)

include hg

theorem length_seen_le (h : Frugal g P bound v) : v.seen.length ≤ g.nodes.size := by
  have hnodup : (v.seen.map InstId.index).Nodup := h.once.map fun _ _ h => InstId.index_inj.mp h
  have hsub : v.seen.map InstId.index ⊆ List.range g.nodes.size := by
    intro k hk
    obtain ⟨d, hd, rfl⟩ := List.mem_map.mp hk
    obtain ⟨i, hi⟩ := hg.listed d (h.seen d hd)
    obtain ⟨n, hn, -⟩ := inst_eq_ok.mp hi
    exact List.mem_range.mpr (Array.getElem?_eq_some_iff.mp hn).1
  simpa using (List.subperm_of_subset hnodup hsub).length_le

theorem mark_frugal (h : Frugal g P bound v) (hd : P d) :
    Yields False (mark g v d) (Frugal g P bound) := by
  unfold mark
  rw [Yields.bind_iff]
  refine (hg.unwrap hd).mono fun e _ he => ?_
  rw [Yields.pure_iff]
  split
  case isTrue => exact h
  case isFalse hnew =>
    refine ⟨h.initial, ?_, List.nodup_cons.mpr ⟨hnew, h.once⟩, ?_, ?_⟩
    · simpa using ⟨he, h.seen⟩
    · simpa using ⟨he, h.waiting⟩
    · have henough := h.enough
      simp only [List.length_cons]
      omega

theorem step_frugal (h : Frugal g P bound v) (hd : P d) :
    Yields False (step g v way d) (Frugal g P bound) := mark_frugal hg h.turn hd

variable (hcharted : Charted g P)

include hcharted

theorem addInput_frugal (hheader : ∃ k, g.block header = .ok k) (h : Frugal g P bound v) (hd : P d) :
    Yields False (addInput g header v d) fun v' => ∀ w, v' = some w → Frugal g P bound w := by
  have hmark : Yields False (do return some (← mark g v d)) fun v' => ∀ w, v' = some w → Frugal g P bound w := by
    rw [Yields.bind_iff]
    refine (mark_frugal hg h hd).mono fun w _ hw => ?_
    rintro _ ⟨⟩
    exact hw
  have hentered : ∀ w, some { v with initial := some d } = some w → Frugal g P bound w := by
    rintro _ ⟨⟩
    refine ⟨?_, h.seen, h.once, h.waiting, h.enough⟩
    rintro _ ⟨⟩
    exact hd
  have hagrees (i : InstId) : ∀ w, (if i = d then some v else none) = some w → Frugal g P bound w := by
    split
    · rintro _ ⟨⟩
      exact h
    · rintro _ ⟨⟩
  obtain ⟨i, hi⟩ := hg.listed d hd
  obtain ⟨n, hn, -⟩ := inst_eq_ok.mp hi
  unfold addInput
  rw [Yields.bind_iff, instBlock_eq_ok.mpr ⟨n, hn, rfl⟩, Yields.ok_iff]
  have hrest {outside : Except Fault (Option Induction)} (inside : Bool)
      (houtside : Yields False outside fun v' => ∀ w, v' = some w → Frugal g P bound w) : Yields False (do
        if inside then return some (← mark g v d)
        outside) fun v' => ∀ w, v' = some w → Frugal g P bound w := by
    split
    · exact hmark
    · exact houtside
  dsimp only
  cases hb : n.block with
  | none =>
    refine hrest false ?_
    split
    · exact hentered
    · exact hagrees _
  | some b =>
    obtain ⟨k, hk⟩ := hheader
    obtain ⟨l, hl⟩ := hcharted d n b hd hn hb
    dsimp only
    unfold FlowGraph.loopContains
    simp only [Yields.bind_iff, hk, hl, Yields.ok_iff]
    split
    all_goals
      refine hrest _ ?_
      split
      · exact hentered
      · exact hagrees _

theorem addInputs_frugal (hheader : ∃ k, g.block header = .ok k) {inputs : List InstId} (hinputs : ∀ d ∈ inputs, P d)
    (h : Frugal g P bound v) :
    Yields False (addInputs g header inputs v) fun v' => ∀ w, v' = some w → Frugal g P bound w := by
  induction inputs generalizing v with
  | nil =>
    rintro _ ⟨⟩
    exact h
  | cons d rest ih =>
    unfold addInputs
    rw [Yields.bind_iff]
    refine (addInput_frugal hg hcharted hheader h (hinputs d List.mem_cons_self)).mono fun v' _ hv' => ?_
    cases v' with
    | none => rintro _ ⟨⟩
    | some w => exact ih (fun e he => hinputs e (List.mem_cons_of_mem _ he)) (hv' w rfl)

theorem visit_frugal (hheader : ∃ k, g.block header = .ok k) (h : Frugal g P bound v) (hd : P d) :
    Yields False (visit g header v d) fun v' => ∀ w, v' = some w → Frugal g P bound w := by
  have hsome {x : Except Fault Induction} (hx : Yields False x (Frugal g P bound)) :
      Yields False (do return some (← x)) fun v' => ∀ w, v' = some w → Frugal g P bound w := by
    rw [Yields.bind_iff]
    refine hx.mono fun w _ hw => ?_
    rintro _ ⟨⟩
    exact hw
  unfold visit
  rw [Yields.bind_iff]
  refine (hg.inst hd).mono fun i _ hi => ?_
  have hargs := hg.args d i hd hi
  split
  case h_1 => exact addInputs_frugal hg hcharted hheader (fun a ha => hargs a ha) h
  case h_2 l r _ _ =>
    have hl : P l := hargs l (by simp [Inst.args])
    have hr : P r := hargs r (by simp [Inst.args])
    rw [Yields.bind_iff]
    refine (hg.direction hr).mono fun right _ _ => ?_
    rw [Yields.bind_iff]
    refine (hg.direction hl).mono fun left _ _ => ?_
    split
    · exact hsome (step_frugal hg h hl)
    split
    · exact hsome (step_frugal hg h hr)
    · rintro _ ⟨⟩
  case h_3 l r _ _ =>
    rw [Yields.bind_iff]
    refine (hg.direction (hargs r (by simp [Inst.args]))).mono fun right _ _ => ?_
    split
    · rintro _ ⟨⟩
    · exact hsome (step_frugal hg h (hargs l (by simp [Inst.args])))
  case h_4 => rintro _ ⟨⟩

theorem follow_frugal (hheader : ∃ k, g.block header = .ok k) {steps : Nat} (h : Frugal g P steps v) :
    Yields False (follow g header (steps + 1) v) fun v' => ∀ w, v' = some w → ∀ i, w.initial = some i → P i := by
  induction steps generalizing v with
  | zero =>
    -- all of the graph has been seen, so nothing waits
    have hnone : v.waiting = [] := by
      have henough := h.enough
      have hle := length_seen_le hg h
      exact List.eq_nil_of_length_eq_zero (by omega)
    unfold follow
    rw [hnone]
    rintro _ ⟨⟩
    exact h.initial
  | succ steps ih =>
    unfold follow
    cases hwaiting : v.waiting with
    | nil =>
      rintro _ ⟨⟩
      exact h.initial
    | cons d rest =>
      have hsplit : ∀ e ∈ d :: rest, P e := hwaiting ▸ h.waiting
      have hrest : Frugal g P steps { v with waiting := rest } := by
        refine ⟨h.initial, h.seen, h.once, fun e he => hsplit e (List.mem_cons_of_mem _ he), ?_⟩
        have henough := h.enough
        rw [hwaiting, List.length_cons] at henough
        dsimp only
        omega
      dsimp only
      rw [Yields.bind_iff]
      refine (visit_frugal hg hcharted hheader hrest (hsplit d List.mem_cons_self)).mono fun v' _ hv' => ?_
      cases v' with
      | none => rintro _ ⟨⟩
      | some w => exact ih (hv' w rfl)

end

end Induction

theorem SelfContained.inductionRange (hg : SelfContained g P) (hcharted : Charted g P) {header : BlockId}
    (hheader : ∃ k, g.block header = .ok k) (hd : P d) :
    Yields False (inductionRange? g header d) fun range => ∀ r, range = some r → RangeIn P r := by
  have hstart : Induction.Frugal g P g.nodes.size {} :=
    ⟨fun _ h => (nomatch h), fun _ h => (nomatch h), List.nodup_nil, fun _ h => (nomatch h), by simp⟩
  unfold inductionRange?
  rw [Yields.bind_iff]
  refine (Induction.mark_frugal hg hstart hd).mono fun start _ hstarted => ?_
  rw [Yields.bind_iff]
  refine (Induction.follow_frugal hg hcharted hheader hstarted).mono fun v _ hv => ?_
  split
  case h_1 i way _ _ _ =>
    have hi : P i := hv _ rfl i rfl
    cases way with
    | positive =>
      dsimp only
      rw [Yields.bind_iff]
      refine (hg.ofDefinition hi).mono fun b _ hb => ?_
      rintro _ ⟨⟩
      exact rangeIn_mk hb symbolIn_constant
    | negative =>
      dsimp only
      rw [Yields.bind_iff]
      refine (hg.ofDefinition hi).mono fun b _ hb => ?_
      rintro _ ⟨⟩
      exact rangeIn_mk symbolIn_constant hb
    | _ =>
      rintro _ ⟨⟩
      exact rangeIn_unknown
  case h_2 => rintro _ ⟨⟩

theorem SelfContained.definitionRange (hg : SelfContained g P) (hd : P d) (hi : g.inst d = .ok i)
    (hconstraint : ∀ r inputs, i = .constraint r inputs → RangeIn P r) : Yields False (definitionRange g i)
    fun result => RangeIn P result.1 := by
  have hargs := hg.args d i hd hi
  unfold Ranges.definitionRange
  split
  case h_1 c =>
    rw [Yields.pure_iff]
    cases c.smi? with
    | none => exact rangeIn_unknown
    | some v => exact rangeIn_between
  case h_2 =>
    rw [Yields.bind_iff]
    refine (hg.input hd hi).mono fun a _ ha => ?_
    rw [Yields.bind_iff]
    refine (hg.range ha).mono fun value _ hvalue => ?_
    rw [Yields.bind_iff]
    exact (hg.intersect (hconstraint _ _ rfl) fun r heq => hg.symbols a r ha (heq ▸ hvalue)).mono fun r _ hr => hr
  case h_3 =>
    rw [Yields.bind_iff]
    exact (hg.binaryRange (hargs _ (by simp [Inst.args])) (hargs _ (by simp [Inst.args]))).mono fun _ _ hr => hr
  case h_4 =>
    rw [Yields.pure_iff]
    unfold lengthRange
    split
    all_goals exact rangeIn_between
  case h_5 =>
    rw [Yields.pure_iff]
    unfold elementRange
    split
    all_goals exact rangeIn_between
  case h_6 => exact rangeIn_unknown

end Midend.Ranges
