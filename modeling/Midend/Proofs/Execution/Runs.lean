import Midend.Proofs.Execution

/-! # Executions that can be computed

Where what instructions do can be computed, so can an execution. Branches compare integers here.
-/

namespace Midend.Execution

open Midend.Flow Ssa

variable {M : Type} {g : FlowGraph} {m : Meaning M} {s s' : State M} {σ σ' : Values} {b c : BlockId}

def areClassesRight (g : FlowGraph) (σ : Values) (i : InstId) (d : Inst) : Bool :=
  (List.range d.args.length).all fun k => match g.useClass i k with
    | .ok cls => cls == .dynamic || cls == .illegal || ((d.args[k]?).bind σ).all (·.isOf cls)
    | .error _ => true

theorem classesRight_of_computed {i : InstId} {d : Inst} (h : areClassesRight g σ i d = true) :
    ClassesRight g σ i d := by
  intro k cls a v hcls hdynamic hillegal ha hv
  have hk : k < d.args.length := (List.getElem?_eq_some_iff.mp ha).1
  have hthis := List.all_eq_true.mp h k (List.mem_range.mpr hk)
  simpa [hcls, ha, hv, hdynamic, hillegal] using hthis

def enter? (g : FlowGraph) (b c : BlockId) (σ : Values) : Option Values :=
  let k := (predsOf g c).idxOf b
  if b ∈ predsOf g c ∧ ∀ d ∈ phisOf g c, aliveIn g d = true → ((inputOf g d k).bind σ).isSome = true then
    some fun d => if LivePhi g c d then (inputOf g d k).bind σ else σ d
  else none

theorem crosses_of_enter (h : enter? g b c σ = some σ') : Crosses g b c σ σ' := by
  unfold enter? at h
  dsimp only at h
  split at h
  case isFalse => cases h
  case isTrue hready =>
    obtain ⟨hb, hphis⟩ := hready
    obtain rfl := Option.some_inj.mp h
    refine ⟨_, List.getElem?_idxOf hb, fun d => ⟨fun hlive => ?_, fun hlive => if_neg hlive⟩⟩
    obtain ⟨v, hv⟩ := Option.isSome_iff_exists.mp (hphis d hlive.1 hlive.2)
    obtain ⟨a, ha, hav⟩ := Option.bind_eq_some_iff.mp hv
    exact ⟨a, v, ha, hav, (if_pos hlive).trans hv⟩

def outcome? (c : Comparison) (σ : Values) : Option Bool :=
  if c.kind = .strict then none
  else ((σ c.left).bind Value.int?).bind fun x => ((σ c.right).bind Value.int?).bind fun y => compareInts c.op x y

theorem outcome_of_computed {cmp : Comparison} {answer : Bool} (h : outcome? cmp σ = some answer) :
    Outcome cmp σ answer := by
  unfold outcome? at h
  split at h
  case isTrue => cases h
  case isFalse hkind =>
    obtain ⟨x, hx, h₁⟩ := Option.bind_eq_some_iff.mp h
    obtain ⟨y, hy, hanswer⟩ := Option.bind_eq_some_iff.mp h₁
    intro l r hl hr
    rw [if_neg hkind]
    intro x' y' answer' hx' hy' hanswer'
    simp_all

/-- Computes what instructions do that end no block, in some of the executions. -/
structure Evaluator (g : FlowGraph) (m : Meaning M) where
  run : Values → M → Inst → Option (Option Value × M)
  does : ∀ {σ μ i d result μ'}, ClassesRight g σ i d → run σ μ d = some (result, μ') → m.does σ μ i d result μ'
  jumps : ∀ {σ μ i t}, ClassesRight g σ i (.goto t) → m.does σ μ i (.goto t) none μ ∧ m.goes σ i (.goto t) t
  branches : ∀ {σ μ i c onTrue onFalse outcome}, ClassesRight g σ i (.branch c onTrue onFalse) → Outcome c σ outcome →
    m.does σ μ i (.branch c onTrue onFalse) none μ ∧
      m.goes σ i (.branch c onTrue onFalse) (if outcome then onTrue else onFalse)

namespace Evaluator

variable {e : Evaluator g m}

def enter? (_ : Evaluator g m) (s : State M) (c : BlockId) : Option (State M) :=
  (Execution.enter? g s.block c s.values).map fun σ => ⟨c, g.insts c, σ, s.memory⟩

def next? (e : Evaluator g m) (s : State M) : Option (State M) :=
  match s.rest with
  | [] => if s.block = FlowGraph.graphEntry ∧ FlowGraph.normalEntry ∈ g.next FlowGraph.graphEntry then
      e.enter? s FlowGraph.normalEntry
    else none
  | i :: rest =>
    match (g.nodes[i.index]?).map Node.inst with
    | none => none
    | some d =>
      if areClassesRight g s.values i d && d.args.all fun a => (s.values a).isSome then
        match d with
        | .goto t => e.enter? s t
        | .branch c onTrue onFalse =>
          (outcome? c s.values).bind fun answer => e.enter? s (if answer then onTrue else onFalse)
        | d =>
          match e.run s.values s.memory d with
          | some (some v, μ) => if d.isDefinition then some ⟨s.block, rest, Function.update s.values i (some v), μ⟩ else
              none
          | some (none, μ) => if !d.isDefinition && !d.isTerminator then some ⟨s.block, rest, s.values, μ⟩ else none
          | none => none
      else none

/-- What is computed is a step of an execution. -/
theorem step_of_next (h : e.next? s = some s') : Step g m s s' := by
  obtain ⟨b, is, σ, μ⟩ := s
  unfold next? at h
  split at h
  case h_1 hrest =>
    obtain rfl : is = [] := hrest
    split at h
    case isFalse => cases h
    case isTrue hentry =>
      obtain ⟨hb, hentry⟩ := hentry
      obtain ⟨σ', hσ', rfl⟩ := Option.map_eq_some_iff.mp h
      obtain rfl : b = FlowGraph.graphEntry := hb
      exact .begin hentry (crosses_of_enter hσ')
  case h_2 i rest hrest =>
    obtain rfl : is = i :: rest := hrest
    split at h
    case h_1 => cases h
    case h_2 d hd =>
      obtain ⟨n, hn, rfl⟩ := Option.map_eq_some_iff.mp hd
      split at h
      case isFalse => cases h
      case isTrue hready =>
        obtain ⟨hclasses, hargs⟩ := Bool.and_eq_true_iff.mp hready
        have hclasses := classesRight_of_computed hclasses
        have hargs : ∀ a ∈ n.inst.args, (σ a).isSome = true := List.all_eq_true.mp hargs
        split at h
        case h_1 t hgoto =>
          obtain ⟨σ', hσ', rfl⟩ := Option.map_eq_some_iff.mp h
          obtain ⟨hdoes, hgoes⟩ := e.jumps (μ := μ) (hgoto ▸ hclasses)
          refine .jump hn (by rw [hgoto]; rfl) ?_ hargs (hgoto ▸ hdoes) (hgoto ▸ hgoes) (crosses_of_enter hσ')
          rw [hgoto]
          exact List.mem_singleton.mpr rfl
        case h_2 cmp onTrue onFalse hbranch =>
          obtain ⟨answer, hanswer, hnext⟩ := Option.bind_eq_some_iff.mp h
          obtain ⟨σ', hσ', rfl⟩ := Option.map_eq_some_iff.mp hnext
          obtain ⟨hdoes, hgoes⟩ := e.branches (μ := μ) (hbranch ▸ hclasses) (outcome_of_computed hanswer)
          refine .jump hn (by rw [hbranch]; rfl) ?_ hargs (hbranch ▸ hdoes) (hbranch ▸ hgoes) (crosses_of_enter hσ')
          rw [hbranch]
          cases answer <;> simp [Inst.successors]
        case h_3 =>
          split at h
          case h_3 => cases h
          case h_1 v μ' hdone =>
            split at h
            case isFalse => cases h
            case isTrue hdef =>
              obtain rfl := Option.some_inj.mp h
              exact .define hn hdef hargs (e.does hclasses hdone)
          case h_2 μ' hdone =>
            split at h
            case isFalse => cases h
            case isTrue hdef =>
              simp only [Bool.and_eq_true, Bool.not_eq_true'] at hdef
              obtain rfl := Option.some_inj.mp h
              exact .pass hn hdef.1 hdef.2 hargs (e.does hclasses hdone)

def after? (e : Evaluator g m) : Nat → State M → Option (State M)
  | 0, s => some s
  | n + 1, s => (e.next? s).bind (e.after? n)

theorem steps_of_after {n : Nat} (h : e.after? n s = some s') : Relation.ReflTransGen (Step g m) s s' := by
  induction n generalizing s with
  | zero =>
    obtain rfl := Option.some_inj.mp h
    exact .refl
  | succ n ih =>
    obtain ⟨s₁, hs₁, hrest⟩ := Option.bind_eq_some_iff.mp h
    exact .head (step_of_next hs₁) (ih hrest)

end Evaluator

/-- The state at the graph entry, with the given values of the parameters. -/
def startState (g : FlowGraph) (parameters : Nat → Value) (memory : M) : State M where
  block := FlowGraph.graphEntry
  rest := []
  values d := if d ∈ g.initialDefinitions then
      match (g.nodes[d.index]?).map Node.inst with
      | some (.constant c) => some (.constant c)
      | some (.parameter k) => some (parameters k)
      | _ => some (parameters 0)
    else none
  memory := memory

theorem start_startState {parameters : Nat → Value} {μ : M}
    (h : ∀ d ∈ g.initialDefinitions, (g.nodes[d.index]?).isSome = true) : Start g (startState g parameters μ) := by
  refine ⟨rfl, rfl, fun d hd => ?_, fun d hd => by simp [startState, hd]⟩
  obtain ⟨n, hn⟩ := Option.isSome_iff_exists.mp (h d hd)
  simp only [startState, if_pos hd, hn, Option.map_some]
  split
  case h_1 c hc => exact ⟨n, _, rfl, rfl, fun c' hc' => by simp_all⟩
  case h_2 hc => exact ⟨n, _, rfl, rfl, fun c' hc' => by simp_all⟩
  case h_3 hno _ => exact ⟨n, _, rfl, rfl, fun c' hc' => absurd (congrArg some hc') (hno c')⟩

/-- Checks the first parameter and counts from it up to the second one. -/
def countedLoop : List Command :=
  [.joinBlock, .targetBlock, .targetBlock,
    .inst (.loadLocal 0), .inst (.unary .checkSmi ⟨0⟩), .inst (.loadLocal 0), .inst (.storeLocal 2 ⟨2⟩),
    .inst (.goto ⟨2⟩), .appendTo ⟨2⟩, .inst (.loadLocal 2), .inst (.loadLocal 1),
    .inst (.branch { Comparison.relational .lt ⟨5⟩ ⟨6⟩ none with operands := .smi } ⟨3⟩ ⟨4⟩),
    .appendTo ⟨3⟩, .inst (.loadLocal 2), .inst (.constant (.smi 1)), .inst (.smiOp .add ⟨8⟩ ⟨9⟩),
    .inst (.storeLocal 2 ⟨10⟩), .inst (.goto ⟨2⟩),
    .appendTo ⟨4⟩, .inst (.loadLocal 2), .inst (.unary .ret ⟨13⟩)]

end Midend.Execution
