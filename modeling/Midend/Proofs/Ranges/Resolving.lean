import Midend.Proofs.Ranges.Arithmetic

/-! # Resolving to the end

The constant that a boundary resolves to is a boundary of the same number, or the mark of an overflow. There is one
exception. If the chain of symbols is too long to be followed to its end, the answer is the limit of the small integers
whatever offset was added up on the way.
-/

namespace Midend.Ranges

variable {g : FlowGraph} {ν : InstId → Int} {s : Side} {b : Boundary} {x z : Int}

/-- After `n` steps of resolving `b` plus an offset, one is still at no constant. -/
def Lost (g : FlowGraph) (s : Side) : Nat → Int → Boundary → Prop
  | 0, _, _ => True
  | _ + 1, _, .constant _ => False
  | n + 1, offset, .unknown => Lost g s n offset s.limit
  | n + 1, offset, .symbol d o =>
    ∃ sum next, Word.add? offset o = some sum ∧ boundaryOf g s d = .ok next ∧ Lost g s n sum next

/-- If the boundary is an offset of a definition, the graph has that definition. -/
def KnownSymbol (g : FlowGraph) : Boundary → Prop := SymbolIn fun d => ∃ range, g.range d = .ok range

/-- The symbols of all recorded ranges are definitions of the graph. -/
def SymbolsKnown (g : FlowGraph) : Prop := ∀ d r, g.range d = .ok (some r) → ∀ s : Side, KnownSymbol g (s.pick r)

theorem known_limit : KnownSymbol g s.limit := by
  cases s <;> rintro _ _ ⟨⟩

theorem exists_boundaryOf (h : Respects g ν) (hknown : SymbolsKnown g) {d : InstId} {range : Option Range}
    (hd : g.range d = .ok range) :
    ∃ next, boundaryOf g s d = .ok next ∧ s.Holds ν next (ν d) ∧ KnownSymbol g next := by
  cases range with
  | none =>
    refine ⟨s.limit, ?_, Side.holds_limit (h.smi d), known_limit⟩
    unfold boundaryOf
    rw [hd]
    rfl
  | some r =>
    refine ⟨s.pick r, ?_, h.ranges d r hd s, hknown d r hd s⟩
    unfold boundaryOf
    rw [hd]
    rfl

/-- Resolving gives the limit if it is lost, else a constant boundary of the same number or the mark of an overflow. -/
theorem resolveWithin_cases (h : Respects g ν) (hknown : SymbolsKnown g) {n : Nat} {offset : Int}
    (hb : s.Holds ν b (z - offset)) (hsymbol : KnownSymbol g b) :
    (Lost g s n offset b ∧ resolveWithin g s n offset b = .ok s.limit) ∨
      (¬ Lost g s n offset b ∧ ∃ c, resolveWithin g s n offset b = .ok c ∧ Comes ν s c z) := by
  induction n generalizing offset b with
  | zero => exact .inl ⟨trivial, rfl⟩
  | succ n ih =>
    cases b with
    | constant v => exact .inr ⟨id, comes_of_constant hb⟩
    | unknown => exact ih hb.limit_of_unknown known_limit
    | symbol d o =>
      unfold Lost resolveWithin
      dsimp only
      cases hsum : Word.add? offset o with
      | none => exact .inr ⟨by rintro ⟨_, _, ⟨⟩, _⟩, _, rfl, comes_overflow⟩
      | some sum =>
        obtain rfl : offset + o = sum := by
          unfold Word.add? Word.check at hsum
          split at hsum
          · exact Option.some_inj.mp hsum
          · cases hsum
        obtain ⟨range, hrange⟩ := hsymbol d o rfl
        obtain ⟨next, hnext, hholds, hthere⟩ := exists_boundaryOf (s := s) h hknown hrange
        have hrest := hb.trans hholds
        rw [show z - offset - o = z - (offset + o) by omega] at hrest
        rw [hnext]
        refine (ih hrest hthere).imp (fun hlost => ⟨⟨_, _, rfl, rfl, hlost.1⟩, hlost.2⟩) ?_
        rintro ⟨hnot, hcomes⟩
        refine ⟨?_, hcomes⟩
        rintro ⟨_, _, ⟨⟩, ⟨⟩, hlost⟩
        exact hnot hlost

theorem Side.limit_ne_overflow : s.limit ≠ s.overflow := by cases s <;> decide

/-- Resolving a number always has an answer. It is the mark of an overflow or a boundary of the number, except when the
way to a constant is too long and the number lies beyond the limit of the small integers. -/
theorem resolve_sound_iff (h : Respects g ν) (hknown : SymbolsKnown g) (hsymbol : KnownSymbol g b)
    (hb : Denotes ν b x) : ∃ c, resolve g s b = .ok c ∧
      ((c = s.overflow ∨ s.Holds ν c x) ↔ (Lost g s maxDepth 0 b → s.Holds ν s.limit x)) := by
  have hholds : s.Holds ν b (x - 0) := by
    rw [Int.sub_zero]
    exact .of_denotes hb
  obtain ⟨hlost, hlimit⟩ | ⟨hnot, c, hc, v, -, hcomes⟩ := resolveWithin_cases (n := maxDepth) h hknown hholds hsymbol
  · refine ⟨s.limit, hlimit, fun hsound _ => hsound.resolve_left Side.limit_ne_overflow, fun hx => .inr (hx hlost)⟩
  · exact ⟨c, hc, fun _ hlost => absurd hlost hnot, fun _ => hcomes.symm⟩

/-! ## Parameters in ascending order -/

/-- `n + 1` parameters, each of which but the last is at most as large as the next one. -/
def ascending (n : Nat) : FlowGraph :=
  { FlowGraph.new "f" (n + 1) 0 with
    nodes := (Array.range (n + 1)).map fun k =>
      { inst := .parameter k, range := if k < n then some ⟨.minSmi, .symbol ⟨k + 1⟩ 0⟩ else none } }

theorem range_ascending {n : Nat} {d : InstId} {range : Option Range} (hd : (ascending n).range d = .ok range) :
    d.index ≤ n ∧ range = if d.index < n then some ⟨.minSmi, .symbol ⟨d.index + 1⟩ 0⟩ else none := by
  obtain ⟨node, hnode, hrange⟩ := bind_eq_ok.mp hd
  have hget := FlowGraph.node_eq_ok.mp hnode
  obtain ⟨hlt, heq⟩ := Array.getElem?_eq_some_iff.mp hget
  simp only [ascending, Array.size_map, Array.size_range] at hlt
  refine ⟨by omega, ?_⟩
  rw [← pure_eq_ok.mp hrange, ← heq]
  simp [ascending]

theorem known_ascending {n k : Nat} {o : Int} (hk : k ≤ n) : KnownSymbol (ascending n) (.symbol ⟨k⟩ o) := by
  have hlt : k < (ascending n).nodes.size := by
    simp only [ascending, Array.size_map, Array.size_range]
    omega
  rintro _ _ ⟨⟩
  exact ⟨_, bind_eq_ok.mpr ⟨_, FlowGraph.node_eq_ok.mpr (Array.getElem?_eq_getElem hlt), rfl⟩⟩

theorem symbolsKnown_ascending (n : Nat) : SymbolsKnown (ascending n) := by
  intro d r hr s
  obtain ⟨-, hrange⟩ := range_ascending hr
  split at hrange
  case isFalse => cases hrange
  case isTrue hlt =>
    obtain rfl := Option.some_inj.mp hrange
    cases s
    · rintro _ _ ⟨⟩
    · exact known_ascending hlt

def greatest (_ : InstId) : Int := Word.smiMax

theorem respects_ascending (n : Nat) : Respects (ascending n) greatest where
  smi := fun _ => by unfold greatest; decide
  ranges := fun d r hr s => by
    obtain ⟨-, heq⟩ := range_ascending hr
    split at heq
    · obtain rfl := Option.some_inj.mp heq
      cases s
      · show Word.smiMin ≤ Word.smiMax
        decide
      · show Word.smiMax ≤ Word.smiMax + 0
        decide
    · cases heq

theorem boundaryOf_ascending {n k : Nat} (hk : k < n) : boundaryOf (ascending n) .upper ⟨k⟩ =
    .ok (.symbol ⟨k + 1⟩ 0) := by
  have hget : (ascending n).nodes[k]? =
      some { inst := .parameter k, range := some ⟨.minSmi, .symbol ⟨k + 1⟩ 0⟩ } := by
    rw [Array.getElem?_eq_getElem (by simp [ascending]; omega)]
    simp [ascending, hk]
  have hrange : (ascending n).range ⟨k⟩ = .ok (some ⟨.minSmi, .symbol ⟨k + 1⟩ 0⟩) :=
    bind_eq_ok.mpr ⟨_, FlowGraph.node_eq_ok.mpr hget, rfl⟩
  unfold boundaryOf
  rw [hrange]
  rfl

theorem resolveWithin_ascending {n k depth : Nat} {offset o : Int} (hk : k + depth ≤ n)
    (hfits : Word.Fits (offset + o)) : resolveWithin (ascending n) .upper depth offset (.symbol ⟨k⟩ o) =
    .ok .maxSmi := by
  induction depth generalizing k offset o with
  | zero => rfl
  | succ depth ih =>
    have hsum : Word.add? offset o = some (offset + o) := if_pos hfits
    unfold resolveWithin
    dsimp only
    rw [hsum, boundaryOf_ascending (by omega)]
    exact ih (by omega) (by rwa [Int.add_zero])

/-- The chain from the first of 65 parameters is too long. What is one more than the greatest small integer is said to
be no more than that. -/
theorem oneMore_misjudged : Respects (ascending 64) greatest ∧ Denotes greatest (.symbol ⟨0⟩ 1) (Word.smiMax + 1) ∧
    resolve (ascending 64) .upper (.symbol ⟨0⟩ 1) = .ok .maxSmi ∧ Boundary.maxSmi.overflowed = false ∧
      ¬ Side.upper.Holds greatest .maxSmi (Word.smiMax + 1) := by
  refine ⟨respects_ascending 64, rfl, resolveWithin_ascending (by decide) (by decide), rfl, ?_⟩
  show ¬ Word.smiMax + 1 ≤ Word.smiMax
  decide

/-- The chain of three parameters is short enough for the overflow to be seen. -/
theorem oneMore_judged : (resolve (ascending 2) .upper (.symbol ⟨0⟩ 1)).toOption = some .overflowedMaxSmi ∧
    ∃ c, resolve (ascending 2) .upper (.symbol ⟨0⟩ 1) = .ok c ∧
      ((c = Side.upper.overflow ∨ Side.upper.Holds greatest c (Word.smiMax + 1)) ↔
        (Lost (ascending 2) .upper maxDepth 0 (.symbol ⟨0⟩ 1) →
          Side.upper.Holds greatest Side.upper.limit (Word.smiMax + 1))) :=
  ⟨by decide +kernel,
    resolve_sound_iff (respects_ascending 2) (symbolsKnown_ascending 2) (known_ascending (Nat.zero_le 2)) rfl⟩

end Midend.Ranges
