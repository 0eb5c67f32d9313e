import Midend.Proofs.Ranges.Boundaries
import Midend.Ranges.Induction

/-! # What following a loop phi finds

If a phi is found to be an induction variable, then a set of definitions was gone through that draw on nothing but each
other and one initial value: phis, and additions and subtractions of steps whose signs make up the direction. Which
blocks are taken for the loop only decides what is tried as the initial value.
-/

namespace Midend.Ranges

variable {g : FlowGraph} {header : BlockId} {d e a phi base step : InstId} {i : Inst} {v v' w : Induction}
  {way way' : Direction} {range : Range}

/-! ## Steps -/

/-- The instruction moves `base` by `step`, which goes some way. -/
inductive Moves (g : FlowGraph) : Inst → InstId → InstId → Direction → Prop
  | right {l r : InstId} {overflow : Bool} {way : Direction} (hway : direction g r = .ok way) (hne : way ≠ .unknown) :
    Moves g (.binaryOp .binarySmiOp .add l r overflow) l r way
  | left {l r : InstId} {overflow : Bool} {way : Direction} (hway : direction g l = .ok way) (hne : way ≠ .unknown) :
    Moves g (.binaryOp .binarySmiOp .add l r overflow) r l way
  | back {l r : InstId} {overflow : Bool} {way : Direction} (hway : direction g r = .ok way) (hne : way ≠ .unknown) :
    Moves g (.binaryOp .binarySmiOp .sub l r overflow) l r way.inverted

theorem Direction.inverted_ne_unknown (h : way ≠ .unknown) : way.inverted ≠ .unknown := by
  cases way <;> simp_all [Direction.inverted]

theorem Moves.ne_unknown (h : Moves g i base step way) : way ≠ .unknown := by
  cases h with
  | right _ hne | left _ hne => exact hne
  | back _ hne => exact Direction.inverted_ne_unknown hne

/-- A step of direction `step` has been taken into account. -/
def Direction.Covers (d step : Direction) : Prop := d = step ∨ d = .both

theorem Direction.covers_after (d step : Direction) : (d.after step).Covers step := by
  cases d <;> cases step <;> simp [Covers, after]

theorem Direction.Covers.after {d : Direction} (h : d.Covers way) (hne : way ≠ .unknown) (step : Direction) :
    (d.after step).Covers way := by
  cases d <;> cases way <;> cases step <;> simp_all [Covers, Direction.after]

/-! ## Progress -/

namespace Induction

/-- The value below the constraints on `d` is looked at. -/
def Sees (g : FlowGraph) (v : Induction) (d : InstId) : Prop := ∃ e, unwrap g d = .ok e ∧ e ∈ v.seen

/-- `w` continues where `v` stands. Whatever is seen for the first time has still to be looked at. -/
structure Grown (v w : Induction) : Prop where
  seen : ∀ d ∈ v.seen, d ∈ w.seen
  waiting : ∀ d ∈ v.waiting, d ∈ w.waiting
  fresh : ∀ d ∈ w.seen, d ∈ v.seen ∨ d ∈ w.waiting
  initial : ∀ i, v.initial = some i → w.initial = some i
  direction : ∀ way, way ≠ .unknown → v.direction.Covers way → w.direction.Covers way

theorem Grown.refl (v : Induction) : v.Grown v where
  seen _ h := h
  waiting _ h := h
  fresh _ h := .inl h
  initial _ h := h
  direction _ _ h := h

theorem Grown.trans {u : Induction} (h : u.Grown v) (h' : v.Grown w) : u.Grown w where
  seen d hd := h'.seen d (h.seen d hd)
  waiting d hd := h'.waiting d (h.waiting d hd)
  fresh d hd := (h'.fresh d hd).elim (fun hd => (h.fresh d hd).imp_right (h'.waiting d)) .inr
  initial i hi := h'.initial i (h.initial i hi)
  direction way hne hd := h'.direction way hne (h.direction way hne hd)

theorem Sees.grown (h : v.Sees g d) (hvw : v.Grown w) : w.Sees g d := by
  obtain ⟨e, he, hmem⟩ := h
  exact ⟨e, he, hvw.seen e hmem⟩

theorem mark_grown (h : mark g v d = .ok w) : v.Grown w ∧ w.Sees g d := by
  obtain ⟨e, he, h⟩ := bind_eq_ok.mp h
  obtain rfl := pure_eq_ok.mp h
  split
  case isTrue hmem => exact ⟨.refl v, e, he, hmem⟩
  case isFalse =>
    refine ⟨⟨fun d hd => List.mem_cons_of_mem e hd, fun d hd => List.mem_cons_of_mem e hd, fun d hd => ?_, fun i hi =>
      hi, fun way _ hd => hd⟩, e, he, List.mem_cons_self⟩
    exact (List.mem_cons.mp hd).elim (fun h => .inr (h ▸ List.mem_cons_self)) .inl

theorem mark_direction (h : mark g v d = .ok w) : w.direction = v.direction := by
  obtain ⟨e, -, h⟩ := bind_eq_ok.mp h
  obtain rfl := pure_eq_ok.mp h
  split <;> rfl

theorem step_grown (h : Induction.step g v way d = .ok w) : v.Grown w ∧ w.Sees g d ∧ w.direction.Covers way := by
  unfold Induction.step at h
  obtain ⟨hgrown, hsees⟩ := mark_grown h
  refine ⟨⟨hgrown.seen, hgrown.waiting, hgrown.fresh, hgrown.initial, fun way' hne hd => ?_⟩, hsees, ?_⟩
  · exact hgrown.direction way' hne (hd.after hne way)
  · rw [mark_direction h]
    exact Direction.covers_after _ _

/-- The definition belongs to a block of the loop that is recorded for the header. -/
def Inside (g : FlowGraph) (header : BlockId) (a : InstId) : Prop :=
  ∃ b, g.instBlock a = .ok (some b) ∧ g.loopContains header b = .ok true

/-- An input of a phi is the value from outside, or it is from inside and looked at. -/
def Accepts (g : FlowGraph) (header : BlockId) (v : Induction) (a : InstId) : Prop :=
  v.initial = some a ∨ Inside g header a ∧ v.Sees g a

theorem Accepts.grown (h : v.Accepts g header a) (hvw : v.Grown w) : w.Accepts g header a :=
  h.imp (hvw.initial a) fun h => ⟨h.1, h.2.grown hvw⟩

theorem mark_or {inside : Bool} {other : Except Fault (Option Induction)}
    (h : (if inside = true then (do return some (← mark g v a)) else other) = .ok (some w)) :
    inside = true ∧ mark g v a = .ok w ∨ other = .ok (some w) := by
  cases inside with
  | true =>
    obtain ⟨u, hu, h⟩ := bind_eq_ok.mp h
    exact .inl ⟨rfl, Option.some_inj.mp (pure_eq_ok.mp h) ▸ hu⟩
  | false => exact .inr h

theorem addInput_cases (h : addInput g header v a = .ok (some w)) :
    Inside g header a ∧ mark g v a = .ok w ∨ v.initial = none ∧ w = { v with initial := some a } ∨
      v.initial = some a ∧ w = v := by
  unfold addInput at h
  obtain ⟨block, hblock, h⟩ := bind_eq_ok.mp h
  dsimp only at h
  cases hi : v.initial with
  | none =>
    rw [hi] at h
    have h : Inside g header a ∧ mark g v a = .ok w ∨
        (pure (some { v with initial := some a }) : Except Fault (Option Induction)) = .ok (some w) := by
      cases block with
      | none => exact .inr h
      | some b =>
        obtain ⟨inside, hinside, h⟩ := bind_eq_ok.mp h
        obtain ⟨rfl, hmark⟩ | h := mark_or h
        · exact .inl ⟨⟨b, hblock, hinside⟩, hmark⟩
        · exact .inr h
    exact h.imp_right fun h => .inl ⟨rfl, (Option.some_inj.mp (pure_eq_ok.mp h)).symm⟩
  | some i =>
    rw [hi] at h
    have h : Inside g header a ∧ mark g v a = .ok w ∨
        (pure (if i = a then some v else none) : Except Fault _) = .ok (some w) := by
      cases block with
      | none => exact .inr h
      | some b =>
        obtain ⟨inside, hinside, h⟩ := bind_eq_ok.mp h
        obtain ⟨rfl, hmark⟩ | h := mark_or h
        · exact .inl ⟨⟨b, hblock, hinside⟩, hmark⟩
        · exact .inr h
    refine h.imp_right fun h => .inr ?_
    have h := pure_eq_ok.mp h
    split at h
    case isTrue heq => exact ⟨by rw [heq], (Option.some_inj.mp h).symm⟩
    case isFalse => cases h

theorem addInput_grown (h : addInput g header v a = .ok (some w)) : v.Grown w ∧ w.Accepts g header a := by
  obtain ⟨hinside, hmark⟩ | ⟨hnone, rfl⟩ | ⟨hsome, rfl⟩ := addInput_cases h
  · exact ⟨(mark_grown hmark).1, .inr ⟨hinside, (mark_grown hmark).2⟩⟩
  · refine ⟨⟨fun _ h => h, fun _ h => h, fun _ h => .inl h, fun i hi => ?_, fun _ _ h => h⟩, .inl rfl⟩
    rw [hnone] at hi
    cases hi
  · exact ⟨.refl _, .inl hsome⟩

theorem addInputs_grown {inputs : List InstId} (h : addInputs g header inputs v = .ok (some w)) :
    v.Grown w ∧ ∀ a ∈ inputs, w.Accepts g header a := by
  induction inputs generalizing v with
  | nil =>
    obtain rfl := Option.some_inj.mp (pure_eq_ok.mp h)
    exact ⟨.refl v, fun _ h => by cases h⟩
  | cons a inputs ih =>
    unfold addInputs at h
    obtain ⟨next, hnext, h⟩ := bind_eq_ok.mp h
    cases next with
    | none => cases pure_eq_ok.mp h
    | some u =>
      obtain ⟨hgrown, haccepts⟩ := addInput_grown hnext
      obtain ⟨hgrown', hall⟩ := ih h
      exact ⟨hgrown.trans hgrown', List.forall_mem_cons.mpr ⟨haccepts.grown hgrown', hall⟩⟩

/-- Where the value of `d` comes from is known, and the steps on the way are taken into account. -/
def Explains (g : FlowGraph) (header : BlockId) (v : Induction) (d : InstId) : Prop :=
  ∃ i, g.inst d = .ok i ∧
    ((∃ slot inputs alive representation, i = .phi slot inputs alive representation ∧
    ∀ a ∈ inputs, v.Accepts g header a) ∨
      ∃ base step way, Moves g i base step way ∧ v.direction.Covers way ∧ v.Sees g base)

theorem Explains.grown (h : v.Explains g header d) (hvw : v.Grown w) : w.Explains g header d := by
  obtain ⟨i, hi, ⟨slot, inputs, alive, representation, hphi, hall⟩ | ⟨base, step, way, hmoves, hcovers, hsees⟩⟩ := h
  · exact ⟨i, hi, .inl ⟨slot, inputs, alive, representation, hphi, fun a ha => (hall a ha).grown hvw⟩⟩
  · exact ⟨i, hi, .inr ⟨base, step, way, hmoves, hvw.direction way hmoves.ne_unknown hcovers, hsees.grown hvw⟩⟩

theorem explains_of_step (hi : g.inst d = .ok i) (hmoves : Moves g i base step way)
    (h : Induction.step g v way base = .ok w) : v.Grown w ∧ w.Explains g header d := by
  obtain ⟨hgrown, hsees, hcovers⟩ := step_grown h
  exact ⟨hgrown, i, hi, .inr ⟨base, step, way, hmoves, hcovers, hsees⟩⟩

theorem visit_grown (h : visit g header v d = .ok (some w)) : v.Grown w ∧ w.Explains g header d := by
  unfold visit at h
  obtain ⟨i, hi, h⟩ := bind_eq_ok.mp h
  split at h
  case h_1 slot inputs alive representation =>
    obtain ⟨hgrown, hall⟩ := addInputs_grown h
    exact ⟨hgrown, _, hi, .inl ⟨slot, inputs, alive, representation, rfl, hall⟩⟩
  case h_2 l r overflow =>
    obtain ⟨right, hright, h⟩ := bind_eq_ok.mp h
    obtain ⟨left, hleft, h⟩ := bind_eq_ok.mp h
    split at h
    case isTrue hne =>
      obtain ⟨u, hu, h⟩ := bind_eq_ok.mp h
      obtain rfl := Option.some_inj.mp (pure_eq_ok.mp h)
      exact explains_of_step hi (.right hright hne) hu
    case isFalse =>
      split at h
      case isFalse => cases pure_eq_ok.mp h
      case isTrue hne =>
        obtain ⟨u, hu, h⟩ := bind_eq_ok.mp h
        obtain rfl := Option.some_inj.mp (pure_eq_ok.mp h)
        exact explains_of_step hi (.left hleft hne) hu
  case h_3 l r overflow =>
    obtain ⟨right, hright, h⟩ := bind_eq_ok.mp h
    split at h
    case isTrue => cases pure_eq_ok.mp h
    case isFalse hne =>
      obtain ⟨u, hu, h⟩ := bind_eq_ok.mp h
      obtain rfl := Option.some_inj.mp (pure_eq_ok.mp h)
      exact explains_of_step hi (.back hright hne) hu
  case h_4 => cases pure_eq_ok.mp h

/-- All that is seen is explained, or waits to be. -/
def Settled (g : FlowGraph) (header : BlockId) (v : Induction) : Prop := ∀ d ∈ v.seen, d ∈ v.waiting ∨
    v.Explains g header d

theorem follow_settled {steps : Nat} (hv : v.Settled g header) (h : follow g header steps v = .ok (some w)) :
    (∀ d ∈ v.seen, d ∈ w.seen) ∧ ∀ d ∈ w.seen, w.Explains g header d := by
  induction steps generalizing v with
  | zero => cases h
  | succ steps ih =>
    unfold follow at h
    split at h
    case h_1 hnone =>
      obtain rfl := Option.some_inj.mp (pure_eq_ok.mp h)
      refine ⟨fun _ hd => hd, fun d hd => (hv d hd).resolve_left ?_⟩
      rw [hnone]
      exact List.not_mem_nil
    case h_2 d rest hwaiting =>
      obtain ⟨next, hnext, h⟩ := bind_eq_ok.mp h
      cases next with
      | none => cases pure_eq_ok.mp h
      | some u =>
        obtain ⟨hgrown, hexplains⟩ := visit_grown hnext
        have hsettled : u.Settled g header := by
          intro e he
          obtain hseen | hwaits := hgrown.fresh e he
          · obtain hwaits | hexplained := hv e hseen
            · rw [hwaiting] at hwaits
              obtain rfl | hwaits := List.mem_cons.mp hwaits
              · exact .inr hexplains
              · exact .inl (hgrown.waiting e hwaits)
            · exact .inr (Explains.grown (v := { v with waiting := rest }) hexplained hgrown)
          · exact .inl hwaits
        obtain ⟨hseen, hall⟩ := ih hsettled h
        exact ⟨fun e he => hseen e (hgrown.seen e he), hall⟩

end Induction

/-! ## The range -/

/-- The range of a value that starts with `initial` and goes one way, as far as that says anything. -/
inductive Bounded (g : FlowGraph) (initial : InstId) : Direction → Range → Prop
  | up {b : Boundary} (hb : ofDefinition g initial 0 = .ok b) : Bounded g initial .positive ⟨b, .maxSmi⟩
  | down {b : Boundary} (hb : ofDefinition g initial 0 = .ok b) : Bounded g initial .negative ⟨.minSmi, b⟩
  | still : Bounded g initial .unknown .unknown
  | both : Bounded g initial .both .unknown

/-- An induction variable has been seen, with a value from outside, and all that has been seen is explained. -/
theorem exists_induction (h : inductionRange? g header phi = .ok (some range)) :
    ∃ (v : Induction) (initial : InstId), v.initial = some initial ∧ v.Sees g phi ∧
    (∀ d ∈ v.seen, v.Explains g header d) ∧
      Bounded g initial v.direction range := by
  unfold inductionRange? at h
  obtain ⟨start, hstart, h⟩ := bind_eq_ok.mp h
  obtain ⟨found, hfound, h⟩ := bind_eq_ok.mp h
  split at h
  case h_2 => cases pure_eq_ok.mp h
  case h_1 initial way seen waiting =>
    obtain ⟨hgrown, e, he, hsees⟩ := Induction.mark_grown hstart
    have hsettled : start.Settled g header := fun d hd => (hgrown.fresh d hd).elim (fun h => by cases h) .inl
    obtain ⟨hseen, hall⟩ := Induction.follow_settled hsettled hfound
    refine ⟨_, initial, rfl, ⟨e, he, hseen e hsees⟩, hall, ?_⟩
    split at h
    case h_1 =>
      obtain ⟨b, hb, h⟩ := bind_eq_ok.mp h
      obtain rfl := Option.some_inj.mp (pure_eq_ok.mp h)
      exact .up hb
    case h_2 =>
      obtain ⟨b, hb, h⟩ := bind_eq_ok.mp h
      obtain rfl := Option.some_inj.mp (pure_eq_ok.mp h)
      exact .down hb
    case h_3 =>
      obtain rfl := Option.some_inj.mp (pure_eq_ok.mp h)
      exact .still
    case h_4 =>
      obtain rfl := Option.some_inj.mp (pure_eq_ok.mp h)
      exact .both

end Midend.Ranges
