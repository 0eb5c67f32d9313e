import Midend.Proofs.Ranges.Lookup

/-! # Intersecting ranges

Where the range of a constraint meets that of the value it constrains, one of two boundaries is kept, or a constant that
neither exceeds. Both hold of the value, so it matters little which: even a mistake about two symbols being the same
does no harm. What remains is that everything looked up on the way is there.
-/

namespace Midend.Ranges

variable {g : FlowGraph} {ν : InstId → Int} {s t : Side} {a b b' : Boundary} {d e : InstId} {i : Inst} {x : Int}
  {constraint : Range} {value : Option Range}

/-! ## Looking up -/

def Listed (g : FlowGraph) (d : InstId) : Prop := ∃ i, g.inst d = .ok i

/-- The operands of instructions and the symbols of ranges are in the graph, constraints have a value and every class
check knows the classes of its receivers. -/
structure Readable (g : FlowGraph) : Prop where
  args : ∀ d i, g.inst d = .ok i → ∀ a ∈ i.args, Listed g a
  values : ∀ d r inputs, g.inst d = .ok (.constraint r inputs) → inputs ≠ []
  receivers : ∀ d ic a, g.inst d = .ok (.checkClass ic a) → ∀ o ∈ ic.checks, o.classes ≠ []
  symbols : ∀ d r, g.range d = .ok (some r) → ∀ s : Side, SymbolIn (Listed g) (s.pick r)

theorem Readable.selfContained (hg : Readable g) (h : Valuation g ν) : SelfContained g (Listed g) where
  listed _ hd := hd
  args d i _ := hg.args d i
  values d r inputs _ := hg.values d r inputs
  receivers d ic a _ := hg.receivers d ic a
  symbols d r _ := hg.symbols d r
  smis d c _ hc := h.constants d c hc ▸ h.smi d

/-! ## The tighter boundary -/

theorem clampedValue_constant {v : Int} (hx : Word.IsSmi x) (hv : t.Holds ν (.constant v) x) :
    ∃ w, clampedValue g s (.constant v) = .ok w ∧ t.Holds ν (.constant w) x := by
  have hclamp := hv.clamp hx
  obtain ⟨w, hw⟩ : ∃ w, (Boundary.constant v).clamp = .constant w := by
    unfold Boundary.clamp
    dsimp only
    split
    · exact ⟨_, rfl⟩
    · split <;> exact ⟨_, rfl⟩
  rw [hw] at hclamp
  refine ⟨w, ?_, hclamp⟩
  have hresolve : resolve g s (.constant v) = .ok (.constant v) := rfl
  unfold clampedValue
  rw [hresolve]
  exact value_eq_ok.mpr hw

/-- The tighter of two offsets of what counts as one symbol holds if both do, even if the symbols are confused. -/
theorem holds_tighter (h : Valuation g ν) (ha : s.HoldsAt ν a x) (hb : s.HoldsAt ν b x)
    (hsame : sameSymbol g a b = .ok true) : s.Holds ν (s.tighter a b) x := by
  obtain ⟨p, q, hp, hq, -⟩ := eq_of_sameSymbol h hsame
  have ha : s.Holds ν a x := hp ▸ ha p _ hp
  have hb : s.Holds ν b x := hq ▸ hb q _ hq
  unfold Side.tighter
  cases s <;> dsimp only <;> split <;> assumption

section

variable (hg : Readable g) (h : Valuation g ν) (hx : Word.IsSmi x)

include hg h hx

theorem holds_outermost (hlisted : ∀ r, value = some r → SymbolIn (Listed g) (s.pick r))
    (hvalue : ∀ r, value = some r → s.Holds ν (s.pick r) x) :
    ∃ v, outermost g s value = .ok (.constant v) ∧ s.Holds ν (.constant v) x := by
  cases value with
  | none =>
    obtain ⟨v, hv⟩ := s.exists_limit
    exact ⟨v, by rw [← hv]; rfl, hv ▸ Side.holds_limit hx⟩
  | some r =>
    obtain ⟨_, hv, v, rfl⟩ := ((hg.selfContained h).resolve s (hlisted r rfl)).exists_ok
    exact ⟨v, hv, holds_resolve h.respects hx (hvalue r rfl) hv⟩

theorem holds_tightenConstant (hb : s.Holds ν b x) (hlisted : SymbolIn (Listed g) b)
    (hvalue : ∀ r, value = some r → s.Holds ν (s.pick r) x)
    (hsymbols : ∀ r, value = some r → SymbolIn (Listed g) (s.pick r)) :
    ∃ b', tightenConstant g s b value = .ok b' ∧ s.Holds ν b' x := by
  obtain ⟨v, hv, hvholds⟩ := holds_outermost hg h hx hsymbols hvalue
  obtain ⟨_, hc, c, rfl⟩ := ((hg.selfContained h).resolve s hlisted).exists_ok
  have hcholds : s.Holds ν (.constant c) x := holds_resolve h.respects hx hb hc
  unfold tightenConstant
  rw [hv]
  dsimp only [bind, Except.bind]
  rw [hc]
  cases s with
  | lower =>
    obtain ⟨w, hw, hwholds⟩ := clampedValue_constant (g := g) (s := .upper) hx hvholds
    obtain ⟨e, he, heholds⟩ := clampedValue_constant (g := g) (s := .upper) hx hcholds
    refine ⟨.constant (max w e), ?_, Int.max_le.mpr ⟨hwholds, heholds⟩⟩
    show (do
      let a ← clampedValue g .upper (.constant v)
      let b ← clampedValue g .upper (.constant c)
      return Boundary.constant (max a b)) = _
    rw [hw, he]
    rfl
  | upper =>
    obtain ⟨w, hw, hwholds⟩ := clampedValue_constant (g := g) (s := .lower) hx hvholds
    obtain ⟨e, he, heholds⟩ := clampedValue_constant (g := g) (s := .lower) hx hcholds
    refine ⟨.constant (min w e), ?_, Int.le_min.mpr ⟨hwholds, heholds⟩⟩
    show (do
      let a ← clampedValue g .lower (.constant v)
      let b ← clampedValue g .lower (.constant c)
      return Boundary.constant (min a b)) = _
    rw [hw, he]
    rfl

theorem holds_tighten (hb : s.Holds ν b x) (hlisted : SymbolIn (Listed g) b)
    (hvalue : ∀ r, value = some r → s.Holds ν (s.pick r) x)
    (hsymbols : ∀ r, value = some r → SymbolIn (Listed g) (s.pick r)) :
    ∃ b', tighten g s b value = .ok b' ∧ s.Holds ν b' x := by
  have hconstant := holds_tightenConstant hg h hx hb hlisted hvalue hsymbols
  unfold tighten
  cases value with
  | none =>
    dsimp only [Option.map]
    split
    · exact hconstant
    · exact ⟨b, rfl, hb⟩
  | some r =>
    have hv := hvalue r rfl
    have hvlisted := hsymbols r rfl
    obtain ⟨same, hsame, -⟩ := ((hg.selfContained h).sameBoundary hlisted hvlisted).exists_ok
    obtain ⟨c, hc, hclisted⟩ := ((hg.selfContained h).fold s hlisted).exists_ok
    obtain ⟨w, hw, hwlisted⟩ := ((hg.selfContained h).fold s hvlisted).exists_ok
    obtain ⟨pair, hpair, -⟩ := ((hg.selfContained h).align s s hclisted hwlisted).exists_ok
    dsimp only [Option.map, bind, Except.bind, pure, Except.pure]
    split
    · exact ⟨b, rfl, hb⟩
    split
    · exact ⟨_, rfl, hv⟩
    rw [hsame]
    dsimp only
    split
    · exact ⟨b, rfl, hb⟩
    rw [hc]
    dsimp only
    rw [hw]
    dsimp only
    rw [hpair]
    cases pair with
    | none => exact hconstant
    | some pair =>
      obtain ⟨hleft, hright, hsymbol⟩ :=
        holdsAt_alignWithin h (holds_fold h hx hb hc).at (holds_fold h hx hv hw).at hpair
      exact ⟨_, rfl, holds_tighter h hleft hright hsymbol⟩

end

/-- A small integer that satisfies a constraint and lies in the range of the value lies in the range that is computed
for both. -/
theorem intersect_sound (hg : Readable g) (h : Valuation g ν) (hx : Word.IsSmi x)
    (hconstraint : Contains ν constraint x) (hvalue : ∀ r, value = some r → Contains ν r x)
    (hlisted : ∀ s : Side, SymbolIn (Listed g) (s.pick constraint))
    (hsymbols : ∀ r, value = some r → ∀ s : Side, SymbolIn (Listed g) (s.pick r)) :
    ∃ r, intersect g constraint value = .ok r ∧ Contains ν r x := by
  obtain ⟨r, hmin, hmax, hcontains⟩ := Side.exists_range fun s =>
    holds_tighten hg h hx (hconstraint s) (hlisted s) (fun r hr => hvalue r hr s) fun r hr => hsymbols r hr s
  exact ⟨r, bind_eq_ok.mpr ⟨_, hmin, bind_eq_ok.mpr ⟨_, hmax, rfl⟩⟩, hcontains⟩

theorem inst_boundedByOther (hi : boundedByOther.inst d = .ok i) : ∃ k, i = .parameter k := by
  obtain ⟨k⟩ := d
  match k with
  | 0 | 1 => exact ⟨_, (Except.ok.inj hi).symm⟩
  | k + 2 => cases hi

theorem listed_boundedByOther {r : Range} (hr : boundedByOther.range d = .ok (some r)) (s : Side) :
    SymbolIn (Listed boundedByOther) (s.pick r) := by
  obtain ⟨-, rfl⟩ | ⟨-, rfl⟩ := range_boundedByOther hr
  · cases s <;> exact symbolIn_constant
  · cases s
    · exact symbolIn_constant
    · exact symbolIn_symbol ⟨_, rfl⟩

theorem readable_boundedByOther : Readable boundedByOther where
  args d i hi a ha := by
    obtain ⟨k, rfl⟩ := inst_boundedByOther hi
    cases ha
  values d r inputs hi := by obtain ⟨k, hk⟩ := inst_boundedByOther hi; cases hk
  receivers d ic a hi := by obtain ⟨k, hk⟩ := inst_boundedByOther hi; cases hk
  symbols _ _ hr := listed_boundedByOther hr

theorem valuation_boundedByOther : Valuation boundedByOther sevenAndFive where
  smi := respects_boundedByOther.smi
  ranges := respects_boundedByOther.ranges
  constants d v hv := by
    obtain ⟨_ | _ | k⟩ := d
    · cases Except.ok.inj hv
    · cases Except.ok.inj hv
    · cases hv
  constraints d r inputs a hi := by obtain ⟨k, hk⟩ := inst_boundedByOther hi; cases hk
  sums d l r o hi := by obtain ⟨k, hk⟩ := inst_boundedByOther hi; cases hk
  differences d l r o hi := by obtain ⟨k, hk⟩ := inst_boundedByOther hi; cases hk

/-- The second parameter, five, is found not to be negative and to be less than the first. It was known to be at least
one, which stays. -/
theorem boundedByOther_narrowed :
    intersect boundedByOther ⟨.constant 0, .symbol ⟨0⟩ (-1)⟩ (some ⟨.constant 1, .symbol ⟨0⟩ 0⟩) =
      .ok ⟨.constant 1, .symbol ⟨0⟩ (-1)⟩ ∧
    ∃ r, intersect boundedByOther ⟨.constant 0, .symbol ⟨0⟩ (-1)⟩ (some ⟨.constant 1, .symbol ⟨0⟩ 0⟩) = .ok r ∧
      Contains sevenAndFive r 5 := by
  have hconstraint : Contains sevenAndFive ⟨.constant 0, .symbol ⟨0⟩ (-1)⟩ 5 := by
    intro s
    cases s <;> simp [Side.Holds, Side.pick, sevenAndFive]
  have hrange : boundedByOther.range ⟨1⟩ = .ok (some ⟨.constant 1, .symbol ⟨0⟩ 0⟩) := rfl
  refine ⟨rfl, intersect_sound readable_boundedByOther valuation_boundedByOther (by decide) hconstraint ?_ ?_ ?_⟩
  · rintro _ ⟨⟩
    exact respects_boundedByOther.ranges ⟨1⟩ _ hrange
  · intro s
    cases s
    · exact symbolIn_constant
    · exact symbolIn_symbol ⟨_, rfl⟩
  · rintro _ ⟨⟩
    exact listed_boundedByOther hrange

end Midend.Ranges
