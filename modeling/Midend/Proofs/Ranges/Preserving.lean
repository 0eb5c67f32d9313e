import Midend.Proofs.Keeping
import Midend.Ranges

/-! # What inference keeps

Inference sets ranges, clears marks of overflow, makes loads of lengths, and takes bounds checks out. What none of these
steps spoils still holds when it comes to its end.
-/

namespace Midend.Ranges

open FlowGraph

variable {P : Progress → FlowGraph → Prop} {C : InstId → Prop} {ctx : Context} {smis : List InstId} {b : BlockId}
  {d i : InstId}

/-- No step of inference spoils `P`, where the instructions that blocks have satisfy `C`. -/
structure Tolerant (P : Progress → FlowGraph → Prop) (C : InstId → Prop) : Prop where
  visited : ∀ s g b, P s g → ∀ i ∈ g.insts b, C i
  range : ∀ s i r, Keeps (P s) (Edit.setRange i r)
  clear : ∀ s g i, P s g → Leads True g (Edit.modifyNode i fun n => { n with inst := clearOverflow n.inst })
    fun _ g' => P { s with changed := true } g'
  remove : ∀ s g i, P s g → C i → g.opcode i = .ok .checkArrayBound → Leads True g (Edit.remove i)
    fun _ g' => P { s with changed := true } g'
  symbol : ∀ d cls, Upholds P (lengthSymbol d cls)
  lengths : ∀ s g known, P s g → P { s with lengths := known } g

theorem opcode_of_isRedundant {g : FlowGraph} {length : Boundary} (h : isRedundant g i length = .ok true) :
    g.opcode i = .ok .checkArrayBound := by
  obtain ⟨v, hv, h⟩ := bind_eq_ok.mp h
  obtain ⟨n, hn, rfl⟩ := inst_eq_ok.mp hv
  refine opcode_eq_ok.mpr ⟨n, hn, ?_⟩
  split at h
  case h_1 hinst => rw [hinst]; rfl
  case h_2 => cases h

namespace Tolerant

variable (hP : Tolerant P C)

include hP

theorem newLength {cls : ClassId} : Upholds P (newLength d cls) := by
  refine .graph fun _ => .bind .read fun _ => ?_
  split
  · split
    · exact .bind .read fun _ => .read
    · exact hP.symbol d cls
  · exact .value
  · exact .value
  · exact hP.symbol d cls

theorem arrayLength : Upholds P (arrayLength i) := by
  refine .graph fun _ => .bind .read fun _ => ?_
  split
  · refine .state fun s => ?_
    split
    · exact .value
    · refine .bind hP.newLength fun b => .bind (.note fun s g h => ?_) fun _ => .value
      exact hP.lengths s g _ h
  · exact .value

theorem inferDefinition : Upholds P (inferDefinition d) := by
  refine .graph fun _ => .bind .read fun _ => .bind .read fun r => ?_
  obtain ⟨range, clears⟩ := r
  refine .ite (fun _ s g h => ?_) fun _ => .edit fun s => hP.range s d range
  show Threads True g s _ fun _ s' g' => P s' g'
  rw [Threads.bind_iff, Threads.lift_iff]
  refine (hP.clear s g d h).mono fun _ g₁ h₁ => ?_
  unfold noteChange
  rw [Threads.bind_iff, Threads.modify_iff, Threads.lift_iff]
  exact hP.range _ d range g₁ h₁

theorem inferPhi {s : Progress} {isHeader : Bool} : Keeps (P s) (inferPhi b isHeader d) := by
  refine .reading fun _ => .either (.andThen .lifted fun induction => ?_) (.andThen (.value _) fun induction => ?_)
  all_goals
    cases induction with
    | some range => exact hP.range s d range
    | none => exact .andThen .lifted fun _ => hP.range s d _

theorem inferInitial {s : Progress} : Keeps (P s) (inferInitial d) := by
  refine .reading fun _ => .andThen .lifted fun value => ?_
  cases value with
  | some v => exact hP.range s d _
  | none => exact .value _

theorem removeIfRedundant (hi : C i) : Upholds P (removeIfRedundant i) := by
  refine .bind hP.arrayLength fun length s g h => ?_
  show Threads True g s _ fun _ s' g' => P s' g'
  rw [Threads.bind_iff, Threads.getThe_iff, Threads.bind_iff, Threads.read_iff]
  refine Yields.of_ok fun redundant hredundant => ?_
  split
  case isFalse => exact h
  case isTrue heq =>
    subst heq
    rw [Threads.bind_iff, Threads.lift_iff]
    exact hP.remove s g i h hi (opcode_of_isRedundant hredundant)

theorem inferInst (hi : C i) : Upholds P (inferInst ctx smis i) := by
  refine .ite (fun _ => hP.inferDefinition) fun _ => .ite (fun _ => ?_) fun _ => .value
  exact .graph fun _ => .bind .read fun _ => .ite (fun _ => hP.removeIfRedundant hi) fun _ => .value

theorem inferBlock : Upholds P (inferBlock ctx smis b) := by
  intro s g h
  have hinsts : Upholds P ((g.insts b).forM (Ranges.inferInst ctx smis)) :=
    .each fun i hi => hP.inferInst (hP.visited s g b h i hi)
  have hphis : Upholds P (do
      if ← g.isJoin b then
        let isHeader := (← g.block b).loop.isSome
        (← g.phis b).forM fun phi => do
          if (← (← getThe FlowGraph).isAlivePhi phi) && phi ∈ smis then Ranges.inferPhi b isHeader phi
      (g.insts b).forM (Ranges.inferInst ctx smis) : Analysis Unit) := by
    refine .bind .read fun _ => .ite (fun _ => ?_) fun _ => hinsts
    refine .bind .read fun k => .bind .read fun phis => .bind (.each fun phi _ => ?_) fun _ => hinsts
    exact .graph fun _ => .bind .read fun _ => .ite (fun _ => .edit fun _ => hP.inferPhi) fun _ => .value
  have hinitial : Upholds P (g.initialDefinitions.forM fun d => (Ranges.inferInitial d : Edit Unit) : Analysis Unit) :=
    .each fun d _ => .edit fun _ => hP.inferInitial
  show Threads True g s (Ranges.inferBlock ctx smis b) fun _ s' g' => P s' g'
  unfold Ranges.inferBlock
  rw [Threads.bind_iff, Threads.getThe_iff]
  split
  · rw [Threads.bind_iff]
    exact (hinitial.threads h).mono fun _ s₁ g₁ h₁ => hphis s₁ g₁ h₁
  · exact hphis s g h

theorem inferTree (steps : Nat) (stack : List BlockId) : Upholds P (inferTree ctx smis steps stack) := by
  induction steps generalizing stack with
  | zero =>
    cases stack with
    | nil => exact .value
    | cons b stack => exact .fault
  | succ steps ih =>
    cases stack with
    | nil => exact .value
    | cons b stack => exact .bind hP.inferBlock fun _ => .graph fun _ => .bind .read fun _ => ih _

end Tolerant

end Midend.Ranges
