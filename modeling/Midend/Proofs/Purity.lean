import Midend.Proofs.Builder
import Midend.Proofs.Execution
import Midend.Sharing

/-! # Instructions that do not depend on memory

An instruction that side effects do not affect is taken for a function of its inputs: it is shared and moved. Here it is
said what an instruction ends with in a given heap, and what calls and stores may do to the heap. Most of these
instructions then are functions of their inputs. The exceptions are bounds checks of arrays that may change their length
and type tests that tell strings by their class.
-/

namespace Midend

open Execution

namespace Purity

inductive Verdict where
  | value (v : Value)
  /-- A check that nothing is wrong with. -/
  | pass
  | giveUp

/-- The part of the memory that instructions look at. -/
structure Heap where
  field : Value → Nat → Value
  element : Value → Value → Value
  /-- The length of an array or string. -/
  length : Value → Int
  /-- The string was moved out of the heap and does not have its class id any more. -/
  external : Value → Bool

namespace Heap

/-- A string in the heap has a class id of its own, as everything else has for good. -/
def ownsClass (μ : Heap) (v : Value) : Bool := !(v.classId.isString && μ.external v)

def hasClass (μ : Heap) (v : Value) (cls : ClassId) : Bool := v.classId == cls && μ.ownsClass v

def typeOf (μ : Heap) (v : Value) : ClassId := if μ.ownsClass v then v.classId else .string

/-- What calls and stores leave as it is: the fields that are declared immutable, the lengths of arrays and strings of
fixed length, and the place of a string that was moved out. -/
structure Later (declared : Value → Nat → Prop) (μ μ' : Heap) : Prop where
  fields : ∀ o k, declared o k → μ'.field o k = μ.field o k
  lengths : ∀ v, v.classId.hasFixedLength = true → μ'.length v = μ.length v
  external : ∀ v, μ.external v = true → μ'.external v = true

end Heap

/-- What the instructions do that look at their operands only. -/
structure Operations where
  unary : Opcode → Value → Verdict
  binary : Opcode → Value → Value → Verdict
  unaryOp : Opcode → Token → Value → Verdict
  binaryOp : Opcode → Token → Bool → Value → Value → Verdict
  /-- By kind, operator, class of the operands, and whether boxed numbers are compared by value. -/
  compare : CompareKind → Token → ClassId → Bool → Value → Value → Verdict
  math : Recognized → List Value → Verdict

variable (ops : Operations) (h : Hierarchy)

/-- What an instruction ends with, once its operands have values. Calls and what else depends on more than the heap have
no verdict here. -/
def verdict (μ : Heap) (σ : Values) : Inst → Option Verdict
  | .constant c => some (.value (.constant c))
  | .unary opcode a => (σ a).map (ops.unary opcode)
  | .binary opcode a b => (σ a).bind fun x => (σ b).map (ops.binary opcode x)
  | .unaryOp opcode op a => (σ a).map (ops.unaryOp opcode op)
  | .binaryOp opcode op a b overflow => (σ a).bind fun x => (σ b).map (ops.binaryOp opcode op overflow x)
  | .compare c => if c.isGeneric then none else (σ c.left).bind fun x => (σ c.right).map
      (ops.compare c.kind c.op c.operands c.numberCheck x)
  | .invokeMath f as => (as.mapM σ).map (ops.math f)
  | .checkClass ic a => (σ a).map fun v =>
      if ic.checks.any fun o => o.classes.head?.any (μ.hasClass v) then .pass else .giveUp
  | .checkArrayBound _ a k => (σ a).bind fun array => (σ k).map fun index =>
      if index.smi?.any fun x => decide (0 ≤ x ∧ x < μ.length array) then .pass else .giveUp
  | .instanceOf type negate a => (σ a).map fun v => .value (.bool (h.isSubtype (μ.typeOf v) type != negate))
  | .assertAssignable type a => (σ a).map fun v => if h.isAssignable (μ.typeOf v) type then .value v else .giveUp
  | .loadField offset _ _ _ o => (σ o).map fun object => .value (μ.field object offset)
  | .loadIndexed _ a k => (σ a).bind fun array => (σ k).map fun index => .value (μ.element array index)
  | _ => none

/-- The operands are what the instruction is for: an immutable load reads a field that is declared so, and a bounds
check looks at an array of its class. -/
def Fits (declared : Value → Nat → Prop) (σ : Values) : Inst → Prop
  | .loadField offset _ _ immutable o => immutable = true → ∀ v, σ o = some v → declared v offset
  | .checkArrayBound cls a _ => ∀ v, σ a = some v → v.classId = cls
  | _ => True

/-- Evaluated again with the same inputs, the instruction ends with the same, whatever calls and stores came between. -/
def Pure (d : Inst) : Prop :=
  ∀ declared μ μ' σ, Fits declared σ d → Heap.Later declared μ μ' → verdict ops h μ' σ d = verdict ops h μ σ d

/-- The test of a type tells some strings in the heap from those that were moved out. -/
def TellsStrings (type : ClassId) : Prop := ∃ c : ClassId, c.isString = true ∧
    h.isSubtype c type ≠ h.isSubtype .string type

/-- What the instruction looks at may change, although it is not said to be affected by side effects. -/
def ReadsMutable : Inst → Prop
  | .checkArrayBound cls _ _ => cls.hasFixedLength = false
  | .instanceOf type _ _ | .assertAssignable type _ => TellsStrings h type
  | _ => False

variable {ops h} {μ μ' : Heap} {σ : Values} {d : Inst} {type : ClassId} {v : Value}

/-! ## What does not change -/

theorem hasReceiver_eq_false {ic : InlineCache} {cls : ClassId} (hic : ic.hasReceiver cls = .ok false) :
    ∀ o ∈ ic.checks, ∃ c, o.classes.head? = some c ∧ c ≠ cls := by
  unfold InlineCache.hasReceiver at hic
  generalize ic.checks = checks at hic
  induction checks with
  | nil => simp
  | cons o checks ih =>
    simp only [List.anyM_cons, bind_eq_ok, pure_eq_ok] at hic
    obtain ⟨found, ⟨c, hc, rfl⟩, hrest⟩ := hic
    split at hrest
    case isTrue => cases hrest
    case isFalse hne =>
      intro o' ho'
      obtain rfl | ho' := List.mem_cons.mp ho'
      · refine ⟨c, ?_, by simpa using hne⟩
        simpa [Observation.receiver, Observation.classAt, itemAt, orFault_eq_ok, List.head?_eq_getElem?] using hc
      · exact ih hrest o' ho'

theorem hasClass_of_not_string {cls : ClassId} (hcls : cls.isString = false) :
    μ'.hasClass v cls = μ.hasClass v cls := by
  unfold Heap.hasClass Heap.ownsClass
  by_cases hv : v.classId = cls
  · simp [hv, hcls]
  · simp [beq_eq_false_iff_ne.mpr hv]

theorem isSubtype_typeOf (htells : ¬ TellsStrings h type) :
    h.isSubtype (μ.typeOf v) type = h.isSubtype v.classId type := by
  unfold Heap.typeOf Heap.ownsClass
  split
  case isTrue => rfl
  case isFalse hout =>
    by_contra hne
    exact htells ⟨v.classId, by simp at hout; exact hout.1, Ne.symm hne⟩

theorem isAssignable_of_ne_null {c : ClassId} (hc : c ≠ .null) : h.isAssignable c type = h.isSubtype c type := by
  rw [Hierarchy.isAssignable, beq_eq_false_iff_ne.mpr hc, Bool.false_or]

theorem isAssignable_typeOf (htells : ¬ TellsStrings h type) :
    h.isAssignable (μ.typeOf v) type = h.isAssignable v.classId type := by
  by_cases hv : v.classId.isString = true
  case neg =>
    rw [Heap.typeOf, if_pos]
    simp [Heap.ownsClass, hv]
  case pos =>
    have hnull : v.classId ≠ .null := by
      intro heq
      rw [heq] at hv
      cases hv
    have htype : μ.typeOf v ≠ .null := by
      unfold Heap.typeOf
      split
      · exact hnull
      · decide
    rw [isAssignable_of_ne_null htype, isAssignable_of_ne_null hnull, isSubtype_typeOf htells]

theorem isSome_verdict (hpure : d.affectedBySideEffect = .ok false) (hargs : ∀ a ∈ d.args, (σ a).isSome = true) :
    (verdict ops h μ σ d).isSome = true := by
  have hmap (as : List InstId) (has : ∀ a ∈ as, (σ a).isSome = true) : (as.mapM σ).isSome = true := by
    induction as with
    | nil => rfl
    | cons a as ih =>
      obtain ⟨x, hx⟩ := Option.isSome_iff_exists.mp (has a List.mem_cons_self)
      obtain ⟨xs, hxs⟩ := Option.isSome_iff_exists.mp (ih fun b hb => has b (List.mem_cons_of_mem a hb))
      simp [List.mapM_cons, hx, hxs]
  cases d with
  | invokeMath f as => simpa [verdict] using hmap as hargs
  | compare c =>
    have hgeneric : c.isGeneric = false := by simpa [Inst.affectedBySideEffect] using hpure
    simp only [Inst.args, List.forall_mem_cons, Option.isSome_iff_exists] at hargs
    obtain ⟨⟨x, hx⟩, ⟨y, hy⟩, -⟩ := hargs
    simp [verdict, hgeneric, hx, hy]
  | constant | unary | binary | unaryOp | binaryOp | checkClass | checkArrayBound | instanceOf | assertAssignable
  | loadField =>
    simp only [Inst.args, List.forall_mem_cons, Option.isSome_iff_exists] at hargs
    simp only [verdict]
    grind
  | _ => cases hpure

theorem pure_of_not_readsMutable (hpure : d.affectedBySideEffect = .ok false) (hreads : ¬ ReadsMutable h d) :
    Pure ops h d := by
  intro declared μ μ' σ hfits hlater
  cases d with
  | loadField offset result recognized immutable o =>
    have himmutable : immutable = true := by simpa [Inst.affectedBySideEffect] using hpure
    refine Option.map_congr fun v hv => ?_
    rw [hlater.fields v offset (hfits himmutable v hv)]
  | checkClass ic a =>
    simp only [Inst.affectedBySideEffect, bind_eq_ok] at hpure
    obtain ⟨one, hone, htwo⟩ := hpure
    cases one with
    | true => cases htwo
    | false =>
      have hcongr (v : Value) : (ic.checks.any fun o => o.classes.head?.any (μ'.hasClass v)) =
          ic.checks.any fun o => o.classes.head?.any (μ.hasClass v) := by
        rw [Bool.eq_iff_iff, List.any_eq_true, List.any_eq_true]
        refine exists_congr fun o => and_congr_right fun ho => ?_
        obtain ⟨c, hc, hnotOne⟩ := hasReceiver_eq_false hone o ho
        obtain ⟨c', hc', hnotTwo⟩ := hasReceiver_eq_false htwo o ho
        obtain rfl := Option.some_inj.mp (hc.symm.trans hc')
        have hnot : c.isString = false := by simp [ClassId.isString, hnotOne, hnotTwo]
        rw [hc, Option.any_some, Option.any_some, hasClass_of_not_string hnot]
      simp only [verdict, hcongr]
  | checkArrayBound cls a k =>
    have hfixed : cls.hasFixedLength = true := by simpa [ReadsMutable] using hreads
    simp only [verdict]
    refine Option.bind_congr fun array harray => ?_
    rw [hlater.lengths array (hfits array harray ▸ hfixed)]
  | instanceOf type negate a => simp only [verdict, isSubtype_typeOf hreads]
  | assertAssignable type a => simp only [verdict, isAssignable_typeOf hreads]
  | constant | unary | binary | unaryOp | binaryOp | invokeMath | compare => rfl
  | _ => cases hpure

/-! ## What may change -/

/-- A heap in which everything is null, and strings are outside or not. -/
def plainHeap (length : Value → Int) (external : Bool) : Heap where
  field _ _ := .constant .null
  element _ _ := .constant .null
  length := length
  external _ := external

theorem later_shrunk {declared : Value → Nat → Prop} : Heap.Later declared (plainHeap (fun _ => 1) false)
    (plainHeap (fun v => if v.classId.hasFixedLength then 1 else 0) false) :=
  ⟨fun _ _ _ => rfl, fun _ hv => if_pos hv, fun _ hv => hv⟩

theorem later_moved {declared : Value → Nat → Prop} (length : Value → Int) :
    Heap.Later declared (plainHeap length false) (plainHeap length true) :=
  ⟨fun _ _ _ => rfl, fun _ _ => rfl, fun _ _ => rfl⟩

theorem typeOf_plainHeap {length : Value → Int} {external : Bool} {c : ClassId} (hc : c.isString = true) :
    (plainHeap length external).typeOf (.object 0 c) = if external then .string else c := by
  cases external <;> simp [Heap.typeOf, Heap.ownsClass, plainHeap, Value.classId, hc]

theorem not_pure_of_readsMutable (hdistinct : d.args.Nodup) (hreads : ReadsMutable h d) : ¬ Pure ops h d := by
  intro hpure
  cases d with
  | checkArrayBound cls a k =>
    have hcls : cls.hasFixedLength = false := hreads
    have hne : k ≠ a := by
      simp only [Inst.args, List.nodup_cons, List.mem_singleton] at hdistinct
      exact fun heq => hdistinct.1 heq.symm
    have hsame := hpure (fun _ _ => False) _ _ (fun i => if i = a then some (.object 0 cls) else some (.smi 0))
      (by simp [Fits, Value.classId]) later_shrunk
    simp [verdict, plainHeap, hne, hcls, Value.classId, Value.smi?, Value.smi, Constant.smi?] at hsame
  | instanceOf type negate a =>
    obtain ⟨c, hstring, htells⟩ := hreads
    have hsame := hpure (fun _ _ => False) _ _ (fun _ => some (.object 0 c)) trivial (later_moved fun _ => 0)
    simp only [verdict, typeOf_plainHeap hstring, Option.map_some, Option.some.injEq, Verdict.value.injEq, Value.bool,
      Value.constant.injEq, Constant.bool.injEq] at hsame
    exact htells (by simpa using hsame.symm)
  | assertAssignable type a =>
    obtain ⟨c, hstring, htells⟩ := hreads
    have hsame := hpure (fun _ _ => False) _ _ (fun _ => some (.object 0 c)) trivial (later_moved fun _ => 0)
    have hnull : c ≠ .null := by
      rintro rfl
      cases hstring
    simp only [verdict, typeOf_plainHeap hstring, Option.map_some, Option.some.injEq, if_true, Bool.false_eq_true,
      if_false, isAssignable_of_ne_null hnull, isAssignable_of_ne_null (c := .string) (by decide)] at hsame
    refine htells ?_
    cases hout : h.isSubtype .string type <;> cases hin : h.isSubtype c type <;> simp [hout, hin] at hsame ⊢
  | _ => exact hreads

/-- An instruction that is not said to be affected by side effects always has a verdict, and it is a function of its
inputs exactly if it does not test a length that may change and no type that tells strings apart. -/
theorem unaffected_pure_iff (hpure : d.affectedBySideEffect = .ok false) :
    (∀ μ σ, (∀ a ∈ d.args, (σ a).isSome = true) → (verdict ops h μ σ d).isSome = true) ∧
      (¬ ReadsMutable h d → Pure ops h d) ∧ (d.args.Nodup → Pure ops h d → ¬ ReadsMutable h d) :=
  ⟨fun _ _ => isSome_verdict hpure, pure_of_not_readsMutable hpure,
    fun hdistinct hd hreads => not_pure_of_readsMutable hdistinct hreads hd⟩

/-- A check of a fixed-length array is a function of its operands. -/
theorem arrayCheck_pure : (Inst.checkArrayBound .array ⟨0⟩ ⟨1⟩).affectedBySideEffect = .ok false ∧
    ∀ ops, Pure ops .core (.checkArrayBound .array ⟨0⟩ ⟨1⟩) :=
  ⟨rfl, fun _ => (unaffected_pure_iff rfl).2.1 (by simp [ReadsMutable]; decide)⟩

/-! ## A check of an array that gets shorter -/

/-- Checks an index of a growable array, calls a method of the array, and checks the index again. -/
def clearedArray : List Command :=
  [.inst (.loadLocal 0), .inst (.loadLocal 1), .inst (.checkArrayBound .growableArray ⟨0⟩ ⟨1⟩),
    .inst (.loadLocal 0), .instanceCall "clear" .illegal [⟨3⟩] 1 none,
    .inst (.loadLocal 0), .inst (.loadLocal 1), .inst (.checkArrayBound .growableArray ⟨6⟩ ⟨7⟩),
    .inst (.loadLocal 1), .inst (.unary .ret ⟨9⟩)]

/-- What construction and sharing make of it: the second check is gone, although there is a call in front of it. -/
structure ClearedRun (r g g' : FlowGraph) : Prop where
  built : ∃ b₀, Built b₀ r ∧ Command.script clearedArray FlowGraph.normalEntry (FlowGraph.new "f" 2 0) = some (b₀, r)
  constructed : Ssa.construct.run r = .ok (.ok (), g)
  clean : g.Consistent
  code : g.insts FlowGraph.normalEntry = [⟨2⟩, ⟨4⟩, ⟨5⟩, ⟨8⟩, ⟨10⟩]
  call : ∃ n, g.nodes[5]? = some n ∧ n.inst.hasSideEffect = true
  checks : ∀ i ∈ [2, 8], ∃ n, g.nodes[i]? = some n ∧ n.inst = .checkArrayBound .growableArray ⟨12⟩ ⟨13⟩
  shared : ∃ changed, shareValues.run g = .ok (changed, g')
  gone : g'.insts FlowGraph.normalEntry = [⟨2⟩, ⟨4⟩, ⟨5⟩, ⟨10⟩]

/-- The instruction is the check of the array, computed. -/
def isCheckOfArray : Inst → Bool
  | .checkArrayBound cls array index => cls == .growableArray && array == ⟨12⟩ && index == ⟨13⟩
  | _ => false

def clearedHolds (r : FlowGraph) : Bool :=
  match Ssa.construct.run r with
  | .ok (.ok (), g) =>
    match shareValues.run g with
    | .ok (_, g') =>
      g.check.toOption == some [] && g.insts FlowGraph.normalEntry == [⟨2⟩, ⟨4⟩, ⟨5⟩, ⟨8⟩, ⟨10⟩] &&
        (g.nodes[5]?).any (·.inst.hasSideEffect) && ([2, 8].all fun i => (g.nodes[i]?).any (isCheckOfArray ·.inst)) &&
        g'.insts FlowGraph.normalEntry == [⟨2⟩, ⟨4⟩, ⟨5⟩, ⟨10⟩]
    | _ => false
  | _ => false

theorem exists_clearedRun : ∃ r g g', ClearedRun r g g' := by
  have hcompute : ((Command.script clearedArray FlowGraph.normalEntry (FlowGraph.new "f" 2 0)).map
      (clearedHolds ·.2)) = some true := by decide +kernel
  obtain ⟨⟨b₀, r⟩, hscript, hholds⟩ := Option.map_eq_some_iff.mp hcompute
  have hstart : Built FlowGraph.normalEntry (FlowGraph.new "f" 2 0) := @Built.start "f" 2 0 none (by decide)
  unfold clearedHolds at hholds
  split at hholds
  case h_2 => cases hholds
  case h_1 g hg =>
    split at hholds
    case h_2 => cases hholds
    case h_1 changed g' hg' =>
      simp only [Bool.and_eq_true, beq_iff_eq, Option.any_eq_true, List.all_eq_true] at hholds
      obtain ⟨⟨⟨⟨hclean, hcode⟩, hcall⟩, hchecks⟩, hgone⟩ := hholds
      refine ⟨r, g, g', ⟨b₀, hstart.script hscript, hscript⟩, hg, FlowGraph.consistent_iff_computed.mpr hclean, hcode,
        hcall, fun i hi => ?_, ⟨changed, hg'⟩, hgone⟩
      obtain ⟨n, hn, hcheck⟩ := hchecks i hi
      refine ⟨n, hn, ?_⟩
      unfold isCheckOfArray at hcheck
      split at hcheck
      case h_2 => cases hcheck
      case h_1 cls array index heq =>
        simp only [Bool.and_eq_true, beq_iff_eq] at hcheck
        obtain ⟨⟨rfl, rfl⟩, rfl⟩ := hcheck
        exact heq

/-- The check of the growable array is not said to be affected by side effects, and the second one is removed. It
passes with an array of one element, and gives up once a call has made the array empty. -/
theorem clearedArray_check_not_pure : ∃ r g g', ClearedRun r g g' ∧
    (Inst.checkArrayBound .growableArray ⟨12⟩ ⟨13⟩).affectedBySideEffect = .ok false ∧
    ∀ ops, ∃ μ μ' σ, Fits (fun _ _ => False) σ (.checkArrayBound .growableArray ⟨12⟩ ⟨13⟩) ∧
      Heap.Later (fun _ _ => False) μ μ' ∧
      verdict ops .core μ σ (.checkArrayBound .growableArray ⟨12⟩ ⟨13⟩) = some .pass ∧
      verdict ops .core μ' σ (.checkArrayBound .growableArray ⟨12⟩ ⟨13⟩) = some .giveUp := by
  obtain ⟨r, g, g', hrun⟩ := exists_clearedRun
  refine ⟨r, g, g', hrun, rfl, fun ops =>
    ⟨_, _, fun d => if d = ⟨12⟩ then some (.object 0 .growableArray) else some (.smi 0), ?_, later_shrunk, rfl, rfl⟩⟩
  simp [Fits, Value.classId]

end Purity

end Midend
