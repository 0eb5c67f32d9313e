import Midend.Builder
import Midend.Calls.Arithmetic
import Midend.Proofs.Constants.Folding
import Midend.Proofs.Graph.Initial

/-! # Remainders by powers of two

A call of the remainder operator by a power of two becomes a conjunction with a mask. Both are folded alike, whatever
the sign of the other operand.
-/

namespace Midend

namespace Word

variable {x v : Int}

theorem toNat_bits_of_nonneg (hv : Fits v) (hpos : 0 ≤ v) : (bits v).toNat = v.toNat := by
  rw [toNat_of_nonneg (by rwa [toInt_bits hv]), toInt_bits hv]

theorem and_pred_eq_zero_iff (hv : Fits v) (hpos : 0 < v) : and v (v - 1) = 0 ↔ ∃ k < 63, v = 2 ^ k := by
  have hpred : Fits (v - 1) := by
    rw [fits_iff] at *
    omega
  have hnat : (v - 1).toNat = v.toNat - 1 := by omega
  rw [and, ← BitVec.toInt_zero, BitVec.toInt_inj, ← BitVec.toNat_inj, BitVec.toNat_and, toNat_bits_of_nonneg hv hpos.le,
    toNat_bits_of_nonneg hpred (by omega), hnat, BitVec.toNat_zero,
    Nat.and_sub_one_eq_zero_iff_isPowerOfTwo (by omega)]
  constructor
  · rintro ⟨k, hk⟩
    have hlt : 2 ^ k < 2 ^ 63 := by
      have := (fits_iff.mp hv).2
      omega
    exact ⟨k, (Nat.pow_lt_pow_iff_right (by decide)).mp hlt, by
      rw [← Int.toNat_of_nonneg hpos.le, hk]
      norm_cast⟩
  · rintro ⟨k, -, rfl⟩
    exact ⟨k, by norm_cast⟩

theorem and_pred_two_pow (x : Int) {k : Nat} (hk : k < 63) : and x (2 ^ k - 1) = x % 2 ^ k := by
  have hlt : 2 ^ k < 2 ^ 63 := Nat.pow_lt_pow_right (by decide) hk
  have hpos : 0 < 2 ^ k := Nat.two_pow_pos k
  have hmask : (bits (2 ^ k - 1)).toNat = 2 ^ k - 1 := by
    have hcast : (2 ^ k : Int) = (2 ^ k : Nat) := by norm_cast
    rw [toNat_bits_of_nonneg (fits_iff.mpr (by omega)) (by omega)]
    omega
  have hbits : (bits x &&& bits (2 ^ k - 1)).toNat = (bits x).toNat % 2 ^ k := by
    rw [BitVec.toNat_and, hmask, Nat.and_two_pow_sub_one_eq_mod]
  have hsmall := Nat.mod_lt (bits x).toNat hpos
  rw [and, BitVec.toInt_eq_toNat_of_lt (by omega), hbits, bits, BitVec.toNat_ofInt]
  have hdvd : (2 : Int) ^ k ∣ (2 ^ 64 : Nat) := by exact_mod_cast pow_dvd_pow 2 (by omega)
  rw [Int.natCast_emod, Int.toNat_of_nonneg (Int.emod_nonneg _ (by decide))]
  push_cast
  exact Int.emod_emod_of_dvd x hdvd

end Word

theorem foldSmiOp_mod_of_pos {x v : Int} (hx : Word.Fits x) (hpos : 0 < v) : foldSmiOp .mod x v = some (x % v) := by
  have hquotient : Word.Fits (x.tdiv v) := by
    have hle := Int.natAbs_tdiv_le_natAbs x v
    have hsign : 0 ≤ x → 0 ≤ x.tdiv v := fun h => Int.tdiv_nonneg h hpos.le
    have hsign' : x ≤ 0 → x.tdiv v ≤ 0 := fun h => by
      have hneg := Int.tdiv_nonneg (a := -x) (b := v) (by omega) hpos.le
      rw [Int.neg_tdiv] at hneg
      omega
    rw [Word.fits_iff] at *
    omega
  simp only [foldSmiOp, if_neg hpos.ne', Word.check, if_pos hquotient, Option.map_some]

namespace Calls

variable {v mask x : Int} {g g' : FlowGraph} {call l r : InstId}

theorem smiConstantOf_of_constant {n : Node} {c : Constant} (hn : g.nodes[r.index]? = some n)
    (hc : n.inst = .constant c) : g.smiConstantOf r = .ok c.smi? := by
  unfold FlowGraph.smiConstantOf FlowGraph.constantOf
  rw [FlowGraph.inst_eq_ok.mpr ⟨n, hn, rfl⟩, hc]
  rfl

/-- What is put in the place of a remainder is a conjunction with the mask for the constant that is divided by. -/
theorem replaceByMask_emits (hv : g.smiConstantOf r = .ok (some v)) (hmask : moduloMask? v = some mask)
    (hrun : (replaceByMask call l r).run g = .ok (true, g')) :
    ∃ m g₁ new, g₁.smiConstantOf m = .ok (some mask) ∧ (replaceCall call (.smiOp .bitAnd l m)).run g₁ =
    .ok (new, g') := by
  suffices hleads : Leads True g (replaceByMask call l r) fun _ g' => ∃ m g₁ new,
      g₁.smiConstantOf m = .ok (some mask) ∧ (replaceCall call (.smiOp .bitAnd l m)).run g₁ = .ok (new, g') from
    hleads.post_of_ok hrun
  unfold replaceByMask
  rw [Leads.bind_iff, Leads.get_iff, Leads.bind_iff, Leads.lift_iff, hv, Yields.ok_iff, Option.bind_some, hmask,
    Leads.bind_iff]
  refine Leads.of_ok fun _ g₁ _ => ?_
  rw [Leads.bind_iff]
  refine (Leads.getConstant fun h => absurd trivial h).mono fun m g₂ hm => ?_
  rw [Leads.bind_iff, Leads.discard_iff]
  refine Leads.of_ok fun new g₃ hnew => ⟨m, g₂, new, ?_, hnew⟩
  rcases hm with ⟨rfl, -, n, c, hn, hc, hsame⟩ | ⟨rfl, rfl⟩
  · rw [smiConstantOf_of_constant hn hc, Constant.smi?_congr hsame]
    rfl
  · rw [smiConstantOf_of_constant (by rw [FlowGraph.nodes_withInitial, if_pos rfl]) rfl]
    rfl

/-- Where a remainder is replaced by a conjunction with a mask, both are folded alike. -/
theorem remainder_folds_as_mask (hx : Word.Fits x) (hv : Word.Fits v) (hmask : moduloMask? v = some mask) :
    foldSmiOp .bitAnd x mask = foldSmiOp .mod x v ∧
    ∀ g g' call l r, g.smiConstantOf r = .ok (some v) → (replaceByMask call l r).run g = .ok (true, g') →
      ∃ m g₁ new, g₁.smiConstantOf m = .ok (some mask) ∧
        (replaceCall call (.smiOp .bitAnd l m)).run g₁ = .ok (new, g') := by
  refine ⟨?_, fun g g' call l r hr hrun => replaceByMask_emits hr hmask hrun⟩
  obtain ⟨⟨hpos, hbits⟩, heq⟩ := Option.ite_none_right_eq_some.mp hmask
  obtain rfl := Option.some_inj.mp heq
  obtain ⟨k, hk, rfl⟩ := (Word.and_pred_eq_zero_iff hv hpos).mp hbits
  rw [foldSmiOp_mod_of_pos hx hpos, ← Word.and_pred_two_pow x hk]
  rfl

/-- A method that computes the remainder of its parameter by 8. -/
def remainderByEight : Except Fault (InstId × FlowGraph) :=
  (Build.run do Build.binaryCall .mod (← Build.loadLocal 0) (← Build.smi 8) none).run (FlowGraph.new "f" 1 0)

def remainderReplaced : Bool :=
  match remainderByEight with
  | .ok (call, g) =>
    match g.smiConstantOf ⟨1⟩, (replaceByMask call ⟨0⟩ ⟨1⟩).run g with
    | .ok (some 8), .ok (true, _) => true
    | _, _ => false
  | _ => false

theorem remainderByEight_folds_as_mask : ∃ call g g', remainderByEight = .ok (call, g) ∧
    (replaceByMask call ⟨0⟩ ⟨1⟩).run g = .ok (true, g') ∧ foldSmiOp .bitAnd Word.least 7 = foldSmiOp .mod Word.least 8 ∧
    ∃ m g₁ new, g₁.smiConstantOf m = .ok (some 7) ∧
      (replaceCall call (.smiOp .bitAnd ⟨0⟩ m)).run g₁ = .ok (new, g') := by
  have hcompute : remainderReplaced = true := by decide +kernel
  have hfold := @remainder_folds_as_mask 8 7 Word.least (by decide) (by decide) (by decide)
  unfold remainderReplaced at hcompute
  split at hcompute
  case h_2 => cases hcompute
  case h_1 call g hbuilt =>
    split at hcompute
    case h_2 => cases hcompute
    case h_1 g' height hrun => exact ⟨call, g, g', hbuilt, hrun, hfold.1, hfold.2 g g' call ⟨0⟩ ⟨1⟩ height hrun⟩

end Calls

end Midend
