import Midend.Proofs.Ssa.Entry
import Midend.Proofs.Ssa.Liveness

/-! # What frames hold

Every value in a frame was made earlier in the block or in a block above it in the tree. What lies on the
expression stack is never a dead phi.
-/

namespace Midend

open Midend.Flow

theorem Inst.local_cases {d : Inst} (hfits : d.fits = true) (hlocal : d.isLocal = true) :
    (∃ slot, d = .loadLocal slot) ∨ ∃ slot v, d = .storeLocal slot v := by
  unfold Inst.isLocal at hlocal
  cases d with
  | loadLocal slot => exact .inl ⟨slot, rfl⟩
  | storeLocal slot v => exact .inr ⟨slot, v, rfl⟩
  | compare c =>
    have hop : c.opcode = .loadLocal ∨ c.opcode = .storeLocal := by simpa [Inst.opcode] using hlocal
    unfold Comparison.opcode at hop
    split at hop <;> simp at hop
  | _ => simp_all [Inst.fits, Inst.opcode, Opcode.isUnary, Opcode.isBinaryOp, Opcode.isUnaryOp] <;>
      rcases hlocal with rfl | rfl <;> simp at hfits

namespace Ssa

def Dominates (t : Tour) (a b : BlockId) : Prop := Relation.ReflTransGen (fun x y => t.idom? x = some y) b a

/-- The instruction produces a value that stays on the stack, and accesses no local variable. -/
def IsValue (r : FlowGraph) (i : InstId) : Prop :=
  ∃ n, r.nodes[i.index]? = some n ∧ n.inst.isLocal = false ∧ n.inst.isDefinition = true ∧
    (n.inst.opcode = .pushArgument ∨ n.isUsed = true)

/-- Where a value in a frame of `b` may come from, once the instructions of `done` have run in it. -/
def Origin (r : FlowGraph) (t : Tour) (g₀ : FlowGraph) (b : BlockId) (done : List InstId) (v : InstId) : Prop :=
  v ∈ g₀.initialDefinitions ∨ (∃ a, Dominates t a b ∧ v ∈ phisOf g₀ a) ∨
    (∃ a, Dominates t a b ∧ a ≠ b ∧ v ∈ r.insts a ∧ IsValue r v) ∨ (v ∈ done ∧ IsValue r v)

/-- A frame of `b` once the instructions of `done` have run in it. -/
structure Stocked (r : FlowGraph) (t : Tour) (g₀ g : FlowGraph) (b : BlockId) (done : List InstId) (f : Frame) :
    Prop where
  origin : ∀ v ∈ f, Origin r t g₀ b done v
  lives : ∀ k v, r.parameterCount + r.localCount ≤ k → f[k]? = some v → Lives g₀ g v

section Frames

variable {r g₀ g : FlowGraph} {t : Tour} {b : BlockId} {done is : List InstId} {f f' : Frame} {s : Names} {i v : InstId}

theorem Origin.mono (h : Origin r t g₀ b done v) (is : List InstId) : Origin r t g₀ b (done ++ is) v :=
  h.imp_right (Or.imp_right (Or.imp_right fun ⟨hv, hvalue⟩ => ⟨List.mem_append_left is hv, hvalue⟩))

namespace Stocked

theorem mono (h : Stocked r t g₀ g b done f) (is : List InstId) : Stocked r t g₀ g b (done ++ is) f :=
  ⟨fun v hv => (h.origin v hv).mono is, h.lives⟩

theorem of_append {rest : Frame} (h : Stocked r t g₀ g b done (f ++ rest)) : Stocked r t g₀ g b done f where
  origin := fun v hv => h.origin v (List.mem_append_left rest hv)
  lives := by
    intro k v hk hv
    refine h.lives k v hk ?_
    rwa [List.getElem?_append_left (List.getElem?_eq_some_iff.mp hv).1]

theorem set (h : Stocked r t g₀ g b done f) {slot : Nat} (hslot : slot < r.parameterCount + r.localCount)
    (hv : Origin r t g₀ b done v) : Stocked r t g₀ g b done (f.set slot v) where
  origin := by
    intro w hw
    obtain hw | rfl := List.mem_or_eq_of_mem_set hw
    · exact h.origin w hw
    · exact hv
  lives := by
    intro k w hk hw
    rw [List.getElem?_set_ne (by omega)] at hw
    exact h.lives k w hk hw

theorem concat (h : Stocked r t g₀ g b done f) (hv : Origin r t g₀ b done v) (hl : Lives g₀ g v) :
    Stocked r t g₀ g b done (f ++ [v]) where
  origin := by
    intro w hw
    obtain hw | hw := List.mem_append.mp hw
    · exact h.origin w hw
    · rwa [List.mem_singleton.mp hw]
  lives := by
    intro k w hk hw
    by_cases hlt : k < f.length
    · rw [List.getElem?_append_left hlt] at hw
      exact h.lives k w hk hw
    · rw [List.getElem?_append_right (Nat.not_lt.mp hlt)] at hw
      rwa [List.mem_singleton.mp (List.mem_of_getElem? hw)]

theorem lives_of_mem {rest as : Frame} (h : Stocked r t g₀ g b done (rest ++ as))
    (hroom : r.parameterCount + r.localCount ≤ rest.length) (hv : v ∈ as) : Lives g₀ g v := by
  obtain ⟨k, hk⟩ := List.mem_iff_getElem?.mp hv
  refine h.lives (rest.length + k) v (Nat.le_add_right_of_le hroom) ?_
  rw [List.getElem?_append_right (Nat.le_add_right _ _), Nat.add_sub_cancel_left, hk]

end Stocked

theorem LeavesLocal.stocked {n : Node} (h : LeavesLocal s g i n v f f') (hf : Stocked r t g₀ g b done f)
    (hv : Origin r t g₀ b done v) (hl : Lives g₀ g v) : Stocked r t g₀ g b done f' := by
  rw [h.frame]
  split
  · exact hf.concat hv hl
  · rwa [List.append_nil]

theorem Step.stocked (h : Base r t g₀) (hstep : Step r g₀ s g i f f') (hf : Stocked r t g₀ g b done f) :
    Stocked r t g₀ g b (done ++ [i]) f' := by
  obtain ⟨n, as, rest, hstep⟩ := hstep
  have hframe := hstep.frame
  subst hframe
  have hrest : Stocked r t g₀ g b (done ++ [i]) rest := (hf.of_append.of_append).mono [i]
  have hroom : r.parameterCount + r.localCount ≤ (rest ++ n.inst.arguments).length := by
    rw [List.length_append]
    exact Nat.le_add_right_of_le hstep.room
  have hleaves := hstep.leaves
  unfold Leaves at hleaves
  split at hleaves
  case h_1 slot _ hinst =>
    obtain ⟨hslot, v, rfl, hv⟩ := hleaves
    have horigin : Origin r t g₀ b (done ++ [i]) v := (hf.origin v (by simp)).mono [i]
    exact hv.stocked (hrest.set hslot horigin) horigin (hf.lives_of_mem hroom List.mem_cons_self)
  case h_2 slot hinst =>
    obtain ⟨hslot, v, hget, hlives, hv⟩ := hleaves
    exact hv.stocked hrest (hrest.origin v (List.mem_of_getElem? hget)) hlives
  case h_3 hstore hload =>
    rw [hleaves]
    split
    case isTrue hpush =>
      have hfits := (h.raw.admits i n hstep.built).fits
      have hvalue : IsValue r i := by
        refine ⟨n, hstep.built, ?_, ?_, hpush.imp_right And.right⟩
        · by_contra hlocal
          obtain ⟨slot, hinst⟩ | ⟨slot, v, hinst⟩ := Inst.local_cases hfits (Bool.not_eq_false _ ▸ hlocal)
          · exact hload slot hinst
          · exact hstore slot v hinst
        · obtain hpush | ⟨hdef, -⟩ := hpush
          · rw [Inst.isDefinition, hpush]
            rfl
          · exact hdef
      refine hrest.concat (.inr (.inr (.inr ⟨by simp, hvalue⟩))) ?_
      intro m hm hphi
      obtain rfl : n = m := by simpa [h.old i n hstep.built] using hm
      rw [h.isPhi_of_raw hstep.built] at hphi
      cases hphi
    case isFalse => rwa [List.append_nil]

theorem Runs.stocked (h : Base r t g₀) (hruns : Runs r g₀ s g is f f') (hf : Stocked r t g₀ g b done f) :
    Stocked r t g₀ g b (done ++ is) f' := by
  induction hruns generalizing done with
  | nil f => rwa [List.append_nil]
  | @cons i is f f₁ f' hstep _ ih =>
    have hf₁ := ih (hstep.stocked h hf)
    rwa [List.append_assoc, List.singleton_append] at hf₁

theorem Runs.append {is' : List InstId} : Runs r g₀ s g (is ++ is') f f' ↔
    ∃ f₁, Runs r g₀ s g is f f₁ ∧ Runs r g₀ s g is' f₁ f' := by
  induction is generalizing f with
  | nil =>
    constructor
    · exact fun h => ⟨f, .nil f, h⟩
    · rintro ⟨f₁, ⟨⟩, h⟩
      exact h
  | cons i is ih =>
    constructor
    · rintro (_ | ⟨hstep, hruns⟩)
      obtain ⟨f₁, h, h'⟩ := ih.mp hruns
      exact ⟨f₁, .cons hstep h, h'⟩
    · rintro ⟨f₁, _ | ⟨hstep, hruns⟩, h'⟩
      exact .cons hstep (ih.mpr ⟨f₁, hruns, h'⟩)

/-! ## Down the tree -/

theorem getElem?_enter (phis : List InstId) {k : Nat} (hk : k < f.length) :
    (∃ phi ∈ phis, slotOf g₀ phi = k ∧ (enter g₀ phis f)[k]? = some phi) ∨
      ((∀ phi ∈ phis, slotOf g₀ phi ≠ k) ∧ (enter g₀ phis f)[k]? = f[k]?) := by
  unfold enter
  induction phis generalizing f with
  | nil => exact .inr ⟨by simp, rfl⟩
  | cons phi phis ih =>
    rw [List.foldl_cons]
    have hk' : k < (f.set (slotOf g₀ phi) phi).length := by rwa [List.length_set]
    obtain ⟨phi', hmem, hslot, hget⟩ | ⟨hnone, hget⟩ := ih hk'
    · exact .inl ⟨phi', List.mem_cons_of_mem phi hmem, hslot, hget⟩
    · by_cases hphi : slotOf g₀ phi = k
      · refine .inl ⟨phi, List.mem_cons_self, hphi, ?_⟩
        rw [hget, hphi, List.getElem?_set_self hk]
      · refine .inr ⟨List.forall_mem_cons.mpr ⟨hphi, hnone⟩, ?_⟩
        rw [hget, List.getElem?_set_ne hphi]

theorem Stocked.enter (h : Base r t g₀) {phis : List InstId} (hphis : ∀ phi ∈ phis, phi ∈ phisOf g₀ b)
    (hf : Stocked r t g₀ g b done f) : Stocked r t g₀ g b done (enter g₀ phis f) := by
  unfold Ssa.enter
  induction phis generalizing f with
  | nil => exact hf
  | cons phi phis ih =>
    rw [List.forall_mem_cons] at hphis
    obtain ⟨-, -, -, hslot, -⟩ := h.phi_of_mem hphis.1
    exact ih hphis.2 (hf.set hslot (.inr (.inl ⟨b, .refl, hphis.1⟩)))

theorem Stocked.below {d : BlockId} (h : Base r t g₀) (hd : t.idom? b = some d)
    (hf : Stocked r t g₀ g d (r.insts d) f) : Stocked r t g₀ g b [] f := by
  refine ⟨fun v hv => ?_, hf.lives⟩
  have hfall : ∀ {a : BlockId}, Dominates t a d → Dominates t a b ∧ a ≠ b := by
    intro a ha
    refine ⟨.head hd ha, ?_⟩
    rintro rfl
    exact h.touring.not_dominates_idom hd ha
  obtain hv | ⟨a, ha, hv⟩ | ⟨a, ha, -, hv⟩ | hv := hf.origin v hv
  · exact .inl hv
  · exact .inr (.inl ⟨a, (hfall ha).1, hv⟩)
  · exact .inr (.inr (.inl ⟨a, (hfall ha).1, (hfall ha).2, hv⟩))
  · exact .inr (.inr (.inl ⟨d, (hfall .refl).1, (hfall .refl).2, hv⟩))

namespace AllRenamed

variable {init : Frame} {out : BlockId → Frame} (h : AllRenamed r t g₀ init s g out)

include h

theorem stocked (hb : b ∈ t.preorder) (hne : b ≠ FlowGraph.graphEntry) :
    Stocked r t g₀ g b [] (into t init out b) ∧ Stocked r t g₀ g b (r.insts b) (out b) := by
  have hrun : ∀ b ∈ t.preorder, b ≠ FlowGraph.graphEntry → Stocked r t g₀ g b [] (into t init out b) →
      Stocked r t g₀ g b (r.insts b) (out b) := by
    intro b hb hne hf
    exact (h.block b hb hne).runs.stocked h.base (hf.enter h.base fun _ hphi => hphi)
  refine h.base.touring.tree_induction h.base.catchEntries
    (motive := fun b => Stocked r t g₀ g b [] (into t init out b) ∧ Stocked r t g₀ g b (r.insts b) (out b)) ?_ ?_ hb hne
  · have hone : FlowGraph.normalEntry ∈ t.preorder :=
      List.mem_of_getElem? (h.base.touring.preorder_one h.base.catchEntries)
    have hinto : into t init out FlowGraph.normalEntry = init := if_pos rfl
    have hinit : Stocked r t g₀ g FlowGraph.normalEntry [] (into t init out FlowGraph.normalEntry) := by
      rw [hinto]
      refine ⟨fun v hv => ?_, fun k v hk hv => ?_⟩
      · obtain ⟨k, hk⟩ := List.mem_iff_getElem?.mp hv
        exact .inl (h.starts.holds k v hk).1
      · have hlt := (List.getElem?_eq_some_iff.mp hv).1
        rw [h.starts.length] at hlt
        omega
    exact ⟨hinit, hrun _ hone (by simp [FlowGraph.normalEntry, FlowGraph.graphEntry]) hinit⟩
  · rintro b d hd hdne ⟨-, hout⟩
    have hb : b ∈ t.preorder := (h.base.touring.mem_of_idom? hd).1
    have hbne : b ≠ FlowGraph.graphEntry := h.base.touring.ne_graphEntry_of_idom? hd
    have hnormal : b ≠ FlowGraph.normalEntry := by
      rintro rfl
      rw [h.base.touring.idom?_normalEntry h.base.catchEntries, Option.some_inj] at hd
      exact hdne hd.symm
    have hinto : into t init out b = out d := by
      unfold into
      rw [if_neg hnormal, hd]
      rfl
    have hin : Stocked r t g₀ g b [] (into t init out b) := hinto ▸ hout.below h.base hd
    exact ⟨hin, hrun b hb hbne hin⟩

/-- The step of an instruction, and what it finds. -/
theorem exists_step (hb : b ∈ t.preorder) (hne : b ≠ FlowGraph.graphEntry) {front back : List InstId}
    (hsplit : r.insts b = front ++ i :: back) :
    ∃ f f', Step r g₀ s g i f f' ∧ Stocked r t g₀ g b front f := by
  have hruns := (h.block b hb hne).runs
  rw [hsplit] at hruns
  obtain ⟨f, hfront, hback⟩ := Runs.append.mp hruns
  obtain _ | ⟨hstep, -⟩ := hback
  have hstart := (h.stocked hb hne).1.enter h.base fun _ hphi => hphi
  exact ⟨f, _, hstep, hfront.stocked h.base hstart⟩

end AllRenamed

end Frames

end Ssa

end Midend
