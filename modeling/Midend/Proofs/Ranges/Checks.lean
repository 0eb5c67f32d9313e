import Midend.Pipeline
import Midend.Proofs.Builder
import Midend.Proofs.Execution.Runs
import Midend.Proofs.Ranges.Boundaries
import Midend.Proofs.Ssa.Construct

/-! # Bounds checks that were removed

Executions in which a check that fails leaves the method, and one of them that comes to a removed check with an index
that is out of bounds. Two loads of one field count as the same value there, although the field is written in between:
it is enough that one of the two loads is of an immutable field.
-/

namespace Midend.Ranges

open Execution Ssa

variable {g : FlowGraph} {length : Nat → Int} {s s' : State Memory}

/-- What instructions do as far as bounds checks depend on it. Arrays have a length for good, that of a new one is the
last argument of the call, and an operation that overflows or a check that fails leaves the method. -/
def checking (g : FlowGraph) (length : Nat → Int) : Meaning Memory where
  does σ μ i d result μ' := ClassesRight g σ i d ∧
    match d with
    | .constant c => result = some (.constant c) ∧ μ' = μ
    | .pushArgument a => result = σ a ∧ μ' = μ
    | .binaryOp .binarySmiOp op l r _ => ∃ x y z, σ l = some (.smi x) ∧ σ r = some (.smi y) ∧
        exactResult op x y = some z ∧ Word.IsSmi z ∧ result = some (.smi z) ∧ μ' = μ
    | .loadField offset _ _ _ o => ∃ object, σ o = some object ∧ result = some (μ.field object offset) ∧ μ' = μ
    | .storeField offset _ o a => ∃ object v, σ o = some object ∧ σ a = some v ∧ μ.WritesField object offset v μ'
    | .staticCall _ arguments .array => ∃ p array, arguments.getLast? = some p ∧ result = some (.object array .array) ∧
        σ p = some (.smi (length array)) ∧ 0 ≤ length array ∧ length array ≤ arrayMaxElements
    | .unary .checkSmi a => (∃ x, σ a = some (.smi x)) ∧ μ' = μ
    | .checkArrayBound _ a k => ∃ array cls x, σ a = some (.object array cls) ∧ σ k = some (.smi x) ∧ 0 ≤ x ∧
        x < length array ∧ μ' = μ
    | _ => True
  goes σ _ d c := match d with
    | .branch cmp onTrue onFalse => ∃ outcome, Outcome cmp σ outcome ∧ c = if outcome then onTrue else onFalse
    | _ => True

/-! ## Executions that can be computed -/

def withField (μ : Memory) (array : Nat) (cls : ClassId) (offset : Nat) (v : Value) : Memory where
  field o k := match o with
    | .object array' cls' => if array' = array ∧ cls' = cls ∧ k = offset then v else μ.field o k
    | .constant _ => μ.field o k
  element := μ.element

/-- What an instruction that does not end the block gives, and the memory behind it. New arrays are called `fresh`. -/
def result? (length : Nat → Int) (fresh : Nat) (σ : Values) (μ : Memory) : Inst → Option (Option Value × Memory)
  | .constant c => some (some (.constant c), μ)
  | .pushArgument a => (σ a).map fun v => (some v, μ)
  | .loadField offset _ _ _ o => (σ o).map fun object => (some (μ.field object offset), μ)
  | .storeField offset _ o a =>
    match σ o, σ a with
    | some (.object object cls), some v => some (some v, withField μ object cls offset v)
    | _, _ => none
  | .staticCall _ arguments .array =>
    match (arguments.getLast?).bind σ with
    | some (.constant (.smi n)) =>
      if n = length fresh ∧ 0 ≤ n ∧ n ≤ arrayMaxElements then some (some (.object fresh .array), μ) else none
    | _ => none
  | .unary .checkSmi a =>
    match σ a with
    | some (.constant (.smi _)) => some (none, μ)
    | _ => none
  | _ => none

theorem writesField_withField {μ : Memory} {object offset : Nat} {cls : ClassId} {v : Value} :
    μ.WritesField (.object object cls) offset v (withField μ object cls offset v) := by
  refine ⟨by simp [withField], fun o k hne => ?_, rfl⟩
  cases o with
  | constant c => rfl
  | object object' cls' =>
    simp only [Value.object.injEq, not_and] at hne
    simp only [withField]
    rw [if_neg]
    rintro ⟨rfl, rfl, rfl⟩
    exact hne ⟨rfl, rfl⟩ rfl

theorem does_of_result {σ : Values} {μ μ' : Memory} {i : InstId} {d : Inst} {fresh : Nat} {result : Option Value}
    (hclasses : ClassesRight g σ i d) (h : result? length fresh σ μ d = some (result, μ')) :
    (checking g length).does σ μ i d result μ' := by
  refine ⟨hclasses, ?_⟩
  unfold result? at h
  split at h
  case h_1 c =>
    obtain ⟨rfl, rfl⟩ : some (.constant c) = result ∧ μ = μ' := by simpa using h
    exact ⟨rfl, rfl⟩
  case h_2 a =>
    obtain ⟨v, hv, heq⟩ := Option.map_eq_some_iff.mp h
    obtain ⟨rfl, rfl⟩ : some v = result ∧ μ = μ' := by simpa using heq
    exact ⟨hv.symm, rfl⟩
  case h_3 offset _ _ _ o =>
    obtain ⟨object, hobject, heq⟩ := Option.map_eq_some_iff.mp h
    obtain ⟨rfl, rfl⟩ : some (μ.field object offset) = result ∧ μ = μ' := by simpa using heq
    exact ⟨object, hobject, rfl, rfl⟩
  case h_4 offset _ o a =>
    split at h
    case h_2 => cases h
    case h_1 object cls v ho hv =>
      obtain ⟨rfl, rfl⟩ : some v = result ∧ withField μ object cls offset v = μ' := by simpa using h
      exact ⟨_, v, ho, hv, writesField_withField⟩
  case h_5 arguments =>
    split at h
    case h_2 => cases h
    case h_1 n hn =>
      split at h
      case isFalse => cases h
      case isTrue hlength =>
        obtain ⟨rfl, hlo, hhi⟩ := hlength
        obtain ⟨rfl, rfl⟩ : some (Value.object fresh .array) = result ∧ μ = μ' := by simpa using h
        obtain ⟨p, hp, hvalue⟩ := Option.bind_eq_some_iff.mp hn
        exact ⟨p, fresh, hp, rfl, hvalue, hlo, hhi⟩
  case h_6 a =>
    split at h
    case h_2 => cases h
    case h_1 x hx =>
      obtain ⟨rfl, rfl⟩ : none = result ∧ μ = μ' := by simpa using h
      exact ⟨⟨x, hx⟩, rfl⟩
  case h_7 => cases h

/-- One of the executions, in which new arrays are called `fresh`. -/
def checkingEvaluator (g : FlowGraph) (length : Nat → Int) (fresh : Nat) : Evaluator g (checking g length) where
  run := result? length fresh
  does := does_of_result
  jumps hclasses := ⟨⟨hclasses, trivial⟩, trivial⟩
  branches hclasses houtcome := ⟨⟨hclasses, trivial⟩, _, houtcome, rfl⟩

/-! ## A field that is written between two loads -/

/-- Makes an array as long as a field says, sets the field, reads it again as one that cannot change, and checks an
index that is less than what was read. -/
def rewrittenField : List Command :=
  [.targetBlock, .targetBlock, .targetBlock, .targetBlock,
    .inst (.loadLocal 0), .inst (.loadField 16 .smi .unknown false ⟨0⟩), .constructorCall ⟨0⟩ [⟨1⟩] .array,
    .inst (.storeLocal 2 ⟨3⟩),
    .inst (.loadLocal 0), .inst (.constant (.smi 5)), .inst (.storeField 16 true ⟨5⟩ ⟨6⟩),
    .inst (.loadLocal 1), .inst (.unary .checkSmi ⟨8⟩),
    .inst (.loadLocal 1), .inst (.constant (.smi 0)),
    .inst (.branch { Comparison.relational .gte ⟨10⟩ ⟨11⟩ none with operands := .smi } ⟨2⟩ ⟨3⟩),
    .appendTo ⟨2⟩, .inst (.loadLocal 1), .inst (.loadLocal 0), .inst (.loadField 16 .smi .unknown true ⟨14⟩),
    .inst (.branch { Comparison.relational .lt ⟨13⟩ ⟨15⟩ none with operands := .smi } ⟨4⟩ ⟨5⟩),
    .appendTo ⟨3⟩, .inst (.loadLocal 1), .inst (.unary .ret ⟨17⟩),
    .appendTo ⟨4⟩, .inst (.loadLocal 2), .inst (.loadLocal 1), .inst (.checkArrayBound .array ⟨19⟩ ⟨20⟩),
    .inst (.loadLocal 1), .inst (.unary .ret ⟨22⟩),
    .appendTo ⟨5⟩, .inst (.loadLocal 1), .inst (.unary .ret ⟨24⟩)]

/-- The first parameter is an object, the second one the number three. -/
def rewrittenStart (g : FlowGraph) : State Memory :=
  startState g (fun k => if k = 1 then .smi 3 else .object 0 ⟨64⟩) ⟨fun _ _ => .smi 1, fun _ _ => .smi 1⟩

/-- The execution comes to a check of an index that is not less than the length of the array, which is one. -/
def FailsCheck (g : FlowGraph) (s : State Memory) (check : InstId) : Prop :=
  ∃ (n : Node) (cls elements : ClassId) (a k : InstId) (array : Nat) (x : Int), s.rest.head? = some check ∧
    g.nodes[check.index]? = some n ∧ n.inst = .checkArrayBound cls a k ∧ s.values a = some (.object array elements) ∧
    s.values k = some (.smi x) ∧ 1 ≤ x

def failsCheck (g : FlowGraph) (s : State Memory) (check : InstId) : Bool :=
  s.rest.head? == some check && match (g.nodes[check.index]?).map Node.inst with
    | some (.checkArrayBound _ a k) => match s.values a, s.values k with
      | some (.object _ _), some (.constant (.smi x)) => decide (1 ≤ x)
      | _, _ => false
    | _ => false

theorem fails_of_computed {check : InstId} (h : failsCheck g s check = true) : FailsCheck g s check := by
  unfold failsCheck at h
  rw [Bool.and_eq_true, beq_iff_eq] at h
  obtain ⟨hhead, h⟩ := h
  split at h
  case h_2 => cases h
  case h_1 cls a k hinst =>
    obtain ⟨n, hn, hinst⟩ := Option.map_eq_some_iff.mp hinst
    split at h
    case h_2 => cases h
    case h_1 array elements x ha hk =>
      exact ⟨n, cls, elements, a, k, array, x, hhead, hn, hinst, ha, hk, of_decide_eq_true h⟩

/-- What construction and range analysis make of it, and where an execution of the graph in between comes to. -/
structure RewrittenRun (r g g' : FlowGraph) (s : State Memory) : Prop where
  built : ∃ b₀, Built b₀ r ∧ Command.script rewrittenField FlowGraph.normalEntry (FlowGraph.new "f" 2 1) = some (b₀, r)
  constructed : Ssa.construct.run r = .ok (.ok (), g)
  clean : g.Consistent
  single : g.SingleEntry
  smis : ∀ n ∈ g.nodes, ∀ v, n.inst.constant?.bind Constant.smi? = some v → Word.IsSmi v
  analyzed : ∃ changed, (analyzeRanges {}).run g = .ok (changed, g')
  reached : Reaches g (checking g fun _ => 1) s
  placed : g.isPlaced ⟨21⟩ = true
  gone : g'.isPlaced ⟨21⟩ = false
  fails : FailsCheck g s ⟨21⟩

def rewrittenHolds (r : FlowGraph) : Bool :=
  match Ssa.construct.run r with
  | .ok (.ok (), g) =>
    match (analyzeRanges {}).run g, (checkingEvaluator g (fun _ => 1) 1).after? 11 (rewrittenStart g) with
    | .ok (_, g'), some s =>
      g.check.toOption == some [] && decide g.SingleEntry &&
        (g.nodes.all fun n => (n.inst.constant?.bind Constant.smi?).all fun v => decide (Word.IsSmi v)) &&
        (g.initialDefinitions.all fun d => (g.nodes[d.index]?).isSome) && g.isPlaced ⟨21⟩ && !g'.isPlaced ⟨21⟩ &&
        failsCheck g s ⟨21⟩
    | _, _ => false
  | _ => false

/-- The check is removed, and would have failed. -/
theorem rewrittenField_out_of_bounds : ∃ r g g' s, RewrittenRun r g g' s := by
  have hcompute : ((Command.script rewrittenField FlowGraph.normalEntry (FlowGraph.new "f" 2 1)).map
      (rewrittenHolds ·.2)) = some true := by decide +kernel
  obtain ⟨⟨b₀, r⟩, hscript, hholds⟩ := Option.map_eq_some_iff.mp hcompute
  have hstart : Built FlowGraph.normalEntry (FlowGraph.new "f" 2 1) := @Built.start "f" 2 1 none (by decide)
  unfold rewrittenHolds at hholds
  split at hholds
  case h_2 => cases hholds
  case h_1 g hg =>
    split at hholds
    case h_2 => cases hholds
    case h_1 changed g' s hg' hs =>
      simp only [Bool.and_eq_true, beq_iff_eq, decide_eq_true_eq, Bool.not_eq_true', List.all_eq_true,
        Array.all_eq_true_iff_forall_mem, Option.all_eq_true] at hholds
      obtain ⟨⟨⟨⟨⟨⟨hclean, hsingle⟩, hsmis⟩, hinitial⟩, hplaced⟩, hgone⟩, hfails⟩ := hholds
      exact ⟨r, g, g', s, ⟨b₀, hstart.script hscript, hscript⟩, hg, FlowGraph.consistent_iff_computed.mpr hclean,
        hsingle, hsmis, ⟨changed, hg'⟩, ⟨rewrittenStart g, start_startState hinitial, Evaluator.steps_of_after hs⟩,
        hplaced, hgone, fails_of_computed hfails⟩

end Midend.Ranges
