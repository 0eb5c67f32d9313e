import Midend.Loads
import Midend.Proofs.Naming.Rewrites
import Midend.Sharing

/-! # Stages that forget names

Where values are shared, and where phis merge the contents of memory, a value may be read that has no name. What is left
is that no two values have the same name.
-/

namespace Midend.Naming

open FlowGraph

variable {g g' : FlowGraph} {b : BlockId} {d i load phi value : InstId} {k : Nat}

/-- Everything belongs to the scope, no value needs a name, and blocks may have any form. -/
def Scope.indifferent : Scope := ⟨fun _ => True, fun _ => True, fun _ => True, False, False⟩

theorem usable_indifferent : Usable .indifferent g d := ⟨trivial, .inl trivial⟩

theorem loose_indifferent : Loose .indifferent g i := fun h => False.elim h

theorem inner_indifferent : Inner .indifferent g i := ⟨trivial, fun h => False.elim h⟩

theorem watched_indifferent {e : Inst} : Watched .indifferent g e :=
  ⟨fun _ _ => usable_indifferent, fun _ _ => inner_indifferent, fun h => False.elim h⟩

/-- Nothing is asked of a graph but that its values have different names. -/
theorem vetted_indifferent_iff : Vetted .indifferent g ↔ g.Numbered where
  mp h := h.numbered
  mpr h :=
    { numbered := h
      watched := fun _ _ _ _ => watched_indifferent
      uses := fun _ _ _ _ _ => ⟨trivial, usable_indifferent⟩
      initial := fun _ _ => usable_indifferent
      bounded := ⟨fun h => False.elim h, fun _ _ _ _ => trivial, fun _ _ _ _ _ => trivial, fun _ _ _ _ _ _ => trivial,
        fun _ _ => trivial, trivial, trivial, fun _ _ => trivial⟩
      stays := fun h => False.elim h
      created := fun _ _ => trivial }

/-! ## Sharing -/

section

open Sharing

theorem minds_shareInst {values : Values} : Minds .indifferent g (shareInst values i) := by
  refine .reading (.lifted fun _ _ => .lifted fun _ _ => .either (fun _ => .value trivial) fun _ => .lifted fun _ _ =>
    ?_)
  split
  · exact (minds_replaceByExisting (fun _ _ _ => usable_indifferent) loose_indifferent).andThen fun _ _ _ _ =>
      .value trivial
  · exact .value trivial

theorem minds_shareBlock {values : Values} : Minds .indifferent g (shareBlock values b) :=
  .reading (.foldlM (fun _ _ => True) trivial fun _ _ _ _ _ _ => minds_shareInst.andThen fun _ _ _ _ => .value trivial)

theorem minds_shareTree (steps : Nat) (stack : List (BlockId × Values)) :
    Minds .indifferent g (shareTree steps stack) := by
  induction steps generalizing g stack with
  | zero => cases stack with
    | nil => exact .value trivial
    | cons => exact .fault
  | succ steps ih =>
    cases stack with
    | nil => exact .value trivial
    | cons x stack =>
      refine minds_shareBlock.andThen fun _ _ _ _ => .reading (.lifted fun _ _ => ?_)
      exact (ih _).andThen fun _ _ _ _ => .value trivial

theorem minds_shareValues : Minds .indifferent g shareValues := .reading (minds_shareTree _ _)

end

/-! ## Loads -/

section

open Loads

theorem minds_setReplacement : Minds .indifferent g (setReplacement d i) := minds_note fun _ => ⟨rfl, rfl, rfl⟩

theorem carries_setAvailable {a : Availability} : Carries .indifferent .blank g (setAvailable b a) fun _ _ => True :=
    .note fun _ h => h

theorem carries_replaceLoad : Carries .indifferent .blank g (replaceLoad load value) fun _ _ => True := by
  refine .andThen (.edit minds_ensureSsaIndex) fun _ _ _ _ =>
    .andThen (.edit (minds_replaceUses fun _ _ _ => ?_)) fun _ _ _ _ => ?_
  · exact usable_indifferent
  · refine .andThen (.edit (minds_remove loose_indifferent)) fun _ _ _ _ => ?_
    refine .andThen (.edit minds_setReplacement) fun _ _ _ _ => ?_
    exact .note fun _ h => h

theorem carries_visitLoad {a : Availability} : Carries .indifferent .blank g (visitLoad a i k) fun _ _ => True := by
  refine .ite (fun _ => ?_) fun _ => .value trivial
  split
  · exact .graph (.read fun _ _ => carries_replaceLoad.andThen fun _ _ _ _ => .value trivial)
  · exact .value trivial

theorem carries_visitInst {m : Numbering} {a : Availability} :
    Carries .indifferent .blank g (Loads.visitInst m a i) fun _ _ => True := by
  refine .graph (.read fun _ _ => ?_)
  split
  · exact .value trivial
  · refine .ite (fun _ => .value trivial) fun _ => ?_
    split
    · exact carries_visitLoad
    · exact .value trivial

theorem carries_visitBlock {m : Numbering} : Carries .indifferent .blank g (Loads.visitBlock m b) fun _ _ => True :=
  .graph (.andThen (.foldlM fun _ _ _ _ _ => carries_visitInst) fun _ _ _ _ => carries_setAvailable)

theorem minds_addPhi {count : Nat} : Minds .indifferent g (Edit.addPhi b none count) := by
  refine .either (fun _ => .fault) fun _ => (vets_addInst_inst watched_indifferent fun _ _ => trivial).andThen fun _ _ _
    _ => ?_
  refine minds_setBlock.andThen fun _ _ _ _ =>
    .andThen (minds_modifyBlock (fun _ _ _ => .inr trivial) fun _ _ _ => .inr trivial) fun _ _ _ _ => .value trivial

theorem carries_mergePhi {values : List InstId} : Carries .indifferent .blank g (mergePhi b values) fun _ _ =>
    True := by
  refine .andThen (.edit minds_addPhi) fun _ _ _ _ => .andThen (.each fun _ _ _ _ => .edit ?_) fun _ _ _ _ => ?_
  · exact minds_setArg trivial usable_indifferent
  · refine .andThen (.discarding (.edit vets_allocSsaIndex.minds)) fun _ _ _ _ => ?_
    exact .andThen (.note fun _ h => h) fun _ _ _ _ => .value trivial

theorem carries_mergeIncoming : Carries .indifferent .blank g (mergeIncoming b k) fun _ _ => True := by
  refine .graph (.state fun _ _ => .read fun _ _ => .read fun _ _ => ?_)
  split
  · exact .ite (fun _ => .value trivial) fun _ => carries_mergePhi.andThen fun _ _ _ _ => .value trivial
  · exact .value trivial

theorem carries_fillValue : Carries .indifferent .blank g (fillValue b k) fun _ _ => True := by
  refine carries_mergeIncoming.andThen fun v _ _ _ => ?_
  cases v with
  | none => exact .value trivial
  | some v =>
    refine .state fun _ _ => ?_
    split
    · exact carries_setAvailable
    · exact .value trivial

theorem carries_carryInto {m : Numbering} : Carries .indifferent .blank g (carryInto m b) fun _ _ => True := by
  refine .state fun _ _ => .graph (.read fun _ _ => .state fun _ _ => ?_)
  dsimp only
  split
  · exact .value trivial
  · refine .ite (fun _ => .value trivial) fun _ => ?_
    refine carries_setAvailable.andThen fun _ _ _ _ => ?_
    refine .ite (fun _ => .value trivial) fun _ => ?_
    exact .andThen (.each fun _ _ _ _ => carries_fillValue) fun _ _ _ _ => .value trivial

theorem carries_settle {m : Numbering} {order : List BlockId} (rounds : Nat) :
    Carries .indifferent .blank g (Loads.settle m order rounds) fun _ _ => True := by
  induction rounds generalizing g with
  | zero => exact .fault
  | succ rounds ih =>
    refine .andThen (.foldlM fun _ _ _ _ _ => carries_carryInto.andThen fun _ _ _ _ => .value trivial) fun _ _ _ _ => ?_
    exact .ite (fun _ => ih) fun _ => .value trivial

theorem carries_forwardBlock {m : Numbering} : Carries .indifferent .blank g (forwardBlock m b) fun _ _ => True := by
  refine .state fun _ _ => ?_
  split
  · exact .value trivial
  · refine .each fun load _ _ _ => ?_
    split
    · refine .ite (fun _ => carries_mergeIncoming.andThen fun v _ _ _ => ?_) fun _ => .value trivial
      cases v with
      | none => exact .value trivial
      | some v => exact .graph (.read fun _ _ => .ite (fun _ => carries_replaceLoad) fun _ => .value trivial)
    · exact .value trivial

theorem carries_discardPhi : Carries .indifferent .blank g (discardPhi phi) fun _ _ => True :=
  .andThen (.edit minds_removePhi) fun _ _ _ _ => .note fun _ h => h

theorem carries_eliminateRedundant : Carries .indifferent .blank g (eliminateRedundant phi) fun _ _ => True := by
  refine .state fun _ _ => .graph (.read fun _ _ => ?_)
  split
  · refine .andThen (.each fun _ _ _ _ => .andThen (.edit (minds_replaceUses fun _ _ _ => ?_)) fun _ _ _ _ => ?_) fun _
      _ _ _ => ?_
    · exact usable_indifferent
    · exact .edit minds_setReplacement
    · exact .andThen (.each fun _ _ _ _ => carries_discardPhi) fun _ _ _ _ => .value trivial
  · exact .value trivial

theorem carries_emitPhi : Carries .indifferent .blank g (emitPhi phi) fun _ _ => True := by
  refine .graph (.read fun _ _ => .ite (fun _ => .value trivial) fun _ => .read fun _ _ => ?_)
  refine .ite (fun _ => carries_discardPhi) fun _ => carries_eliminateRedundant.andThen fun _ _ _ _ => ?_
  exact .ite (fun _ => .andThen (.edit minds_revivePhi) fun _ _ _ _ => .note fun _ h => h) fun _ => .value trivial

theorem carries_forwardAll {m : Numbering} : Carries .indifferent .blank g (forwardAll m) fun _ _ => True := by
  refine .graph (.andThen (.each fun _ _ _ _ => carries_visitBlock) fun _ _ _ _ =>
    (carries_settle _).andThen fun _ _ _ _ => ?_)
  refine .andThen (.each fun _ _ _ _ => carries_forwardBlock) fun _ _ _ _ => .state fun _ _ => ?_
  exact .each fun _ _ _ _ => carries_emitPhi

theorem minds_eliminateLoads : Minds .indifferent g eliminateLoads := by
  refine .reading (.lifted fun _ _ => .either (fun _ => .value trivial) fun _ => ?_)
  exact (carries_forwardAll {} trivial).andThen fun _ _ _ _ => .value trivial

end

end Midend.Naming
