import Mathlib.Data.Int.Bitwise
import Mathlib.Tactic.Ring
import Mathlib.Tactic.Positivity
import Midend.Fault
import Midend.Proofs.Constants.Knowledge

/-! # Exact folding

Folding gives what the operation gives on unbounded integers, wherever that is a word. It can be carried out in machine
words that are checked where they have to be, and where they are not checked nothing is lost.
-/

namespace Midend

namespace Word

variable {x y v : Int}

theorem fits_iff : Fits x ↔ -2 ^ 63 ≤ x ∧ x < 2 ^ 63 := by
  unfold Fits least greatest
  omega

theorem toInt_bits (h : Fits v) : (bits v).toInt = v :=
  BitVec.toInt_ofInt_eq_self (by decide) (fits_iff.mp h).1 (fits_iff.mp h).2

theorem fits_toInt (b : BitVec 64) : Fits b.toInt := by
  rw [fits_iff]
  exact ⟨BitVec.le_toInt b, BitVec.toInt_lt⟩

theorem bits_toInt (b : BitVec 64) : bits b.toInt = b := BitVec.ofInt_toInt

theorem check_eq_some_iff : check x = some v ↔ v = x ∧ Fits v := by
  unfold check
  rw [Option.ite_none_right_eq_some, Option.some_inj]
  constructor
  · rintro ⟨h, rfl⟩
    exact ⟨rfl, h⟩
  · rintro ⟨rfl, h⟩
    exact ⟨h, rfl⟩

theorem check_eq_none_iff : check x = none ↔ ¬ Fits x := by simp [check]

theorem fits_emod (hy : Fits y) (hne : y ≠ 0) : Fits (x % y) := by
  have hpos := Int.emod_nonneg x hne
  have hlt := Int.emod_lt x hne
  rw [fits_iff] at *
  omega

theorem fits_shiftRight (hx : Fits x) (n : Nat) : Fits (x >>> n) := by
  rw [← toInt_bits hx, ← BitVec.toInt_sshiftRight]
  exact fits_toInt _

theorem testBit_toInt (b : BitVec 64) (k : Nat) : b.toInt.testBit k = if k < 64 then b.getLsbD k else b.msb := by
  rw [BitVec.toInt_eq_msb_cond]
  split
  case isFalse hmsb =>
    show b.toNat.testBit k = _
    rw [BitVec.testBit_toNat, eq_comm, ite_eq_left_iff]
    intro hk
    rw [BitVec.getLsbD_of_ge b k (by omega)]
    simpa using hmsb
  case isTrue hmsb =>
    have hnot : ((b.toNat : Int) - (2 ^ 64 : Nat)) = Int.negSucc (~~~b).toNat := by
      rw [BitVec.toNat_not, Int.negSucc_eq]
      have := b.isLt
      omega
    rw [hnot]
    show (!(~~~b).toNat.testBit k) = _
    rw [BitVec.testBit_toNat, BitVec.getLsbD_not]
    split <;> simp [*]

theorem testBit_combine {f : Bool → Bool → Bool} {z : BitVec 64} (hx : Fits x) (hy : Fits y)
    (hbits : ∀ k, z.getLsbD k = f ((bits x).getLsbD k) ((bits y).getLsbD k))
    (hsign : z.msb = f (bits x).msb (bits y).msb) (k : Nat) : z.toInt.testBit k = f (x.testBit k) (y.testBit k) := by
  rw [← toInt_bits hx, ← toInt_bits hy, testBit_toInt, testBit_toInt, testBit_toInt]
  split
  · exact hbits k
  · exact hsign

end Word

/-! ## Unbounded results -/

/-- The operation gives `v` on unbounded integers. Division goes toward zero, remainders are not negative, shifting
to the right rounds down, and a bit of the two's complement depends on the two bits at its place. -/
def IsExact (op : Token) (l r v : Int) : Prop :=
  match op with
  | .add => v = l + r
  | .sub => v = l - r
  | .mul => v = l * r
  | .truncDiv => r ≠ 0 ∧ v = l.tdiv r
  | .mod => 0 ≤ v ∧ v < r.natAbs ∧ r ∣ l - v
  | .shl => 0 ≤ r ∧ v = l * 2 ^ r.toNat
  | .shr => 0 ≤ r ∧ v * 2 ^ r.toNat ≤ l ∧ l < (v + 1) * 2 ^ r.toNat
  | .bitAnd => ∀ k, v.testBit k = (l.testBit k && r.testBit k)
  | .bitOr => ∀ k, v.testBit k = (l.testBit k || r.testBit k)
  | .bitXor => ∀ k, v.testBit k = (l.testBit k ^^ r.testBit k)
  | _ => False

variable {op : Token} {l r v : Int}

theorem isExact_of_exactResult (hl : Word.Fits l) (hr : Word.Fits r) (h : Execution.exactResult op l r = some v) :
    IsExact op l r v := by
  unfold Execution.exactResult at h
  split at h
  case h_1 | h_2 | h_3 => exact (Option.some_inj.mp h).symm
  case h_4 =>
    obtain ⟨hne, h⟩ := Option.ite_none_left_eq_some.mp h
    exact ⟨hne, (Option.some_inj.mp h).symm⟩
  case h_5 =>
    obtain ⟨hne, h⟩ := Option.ite_none_left_eq_some.mp h
    obtain rfl := Option.some_inj.mp h
    exact ⟨Int.emod_nonneg l hne, Int.emod_lt l hne, Int.dvd_self_sub_emod⟩
  case h_6 =>
    obtain ⟨hpos, h⟩ := Option.ite_none_right_eq_some.mp h
    exact ⟨hpos, (Option.some_inj.mp h).symm⟩
  case h_7 =>
    obtain ⟨hpos, h⟩ := Option.ite_none_right_eq_some.mp h
    obtain rfl := Option.some_inj.mp h
    have hpow : (0 : Int) < 2 ^ r.toNat := by positivity
    exact ⟨hpos, Int.ediv_mul_le l hpow.ne', Int.lt_ediv_add_one_mul_self l hpow⟩
  case h_8 =>
    obtain rfl := Option.some_inj.mp h
    exact Word.testBit_combine hl hr (fun _ => BitVec.getLsbD_and) BitVec.msb_and
  case h_9 =>
    obtain rfl := Option.some_inj.mp h
    exact Word.testBit_combine hl hr (fun _ => BitVec.getLsbD_or) BitVec.msb_or
  case h_10 =>
    obtain rfl := Option.some_inj.mp h
    exact Word.testBit_combine hl hr (fun _ => BitVec.getLsbD_xor) BitVec.msb_xor
  case h_11 => cases h

theorem fits_of_fold (hl : Word.Fits l) (hr : Word.Fits r) (h : foldSmiOp op l r = some v) : Word.Fits v := by
  unfold foldSmiOp at h
  split at h
  case h_1 | h_2 | h_3 => exact (Word.check_eq_some_iff.mp h).2
  case h_4 => exact (Word.check_eq_some_iff.mp (Option.ite_none_left_eq_some.mp h).2).2
  case h_5 =>
    obtain ⟨hne, h⟩ := Option.ite_none_left_eq_some.mp h
    obtain ⟨-, -, rfl⟩ := Option.map_eq_some_iff.mp h
    exact Word.fits_emod hr hne
  case h_6 => exact (Word.check_eq_some_iff.mp (Option.ite_none_right_eq_some.mp h).2).2
  case h_7 =>
    obtain ⟨-, h⟩ := Option.ite_none_right_eq_some.mp h
    exact Option.some_inj.mp h ▸ Word.fits_shiftRight hl _
  case h_8 | h_9 | h_10 => exact Option.some_inj.mp h ▸ Word.fits_toInt _
  case h_11 => cases h

/-! ## Folding in words -/

def plainAdd (l r : BitVec 64) : Except Fault (BitVec 64) :=
  if l.saddOverflow r then throw .overflow else return l + r

def plainSub (l r : BitVec 64) : Except Fault (BitVec 64) :=
  if l.ssubOverflow r then throw .overflow else return l - r

/-- A shift to the right by a distance that is not checked. -/
def plainShr (l r : BitVec 64) : Except Fault (BitVec 64) :=
  if 0 ≤ r.toInt ∧ r.toInt < 64 then return l.sshiftRight r.toNat else throw .overflow

/-- The remainder in words. The remainder of a division toward zero has the sign of `l`, and is moved up by the
size of `r` if it is negative. -/
def foldModWords (l r : BitVec 64) : Except Fault (Option (BitVec 64)) := do
  if r = 0 ∨ l.sdivOverflow r = true then return none
  let m := l.srem r
  if 0 ≤ m.toInt then return some m
  else if r.toInt < 0 then return some (← plainSub m r)
  else return some (← plainAdd m r)

/-- A shift to the left in words, which is given up if shifting back does not lead to `l` again. -/
def foldShlWords (l r : BitVec 64) : Except Fault (Option (BitVec 64)) := do
  if 0 ≤ r.toInt ∧ r.toInt < 64 then
    let shifted := l <<< r.toNat
    return if (← plainShr shifted r) = l then some shifted else none
  else return none

/-- A shift to the right in words, by no more than leaves the sign. -/
def foldShrWords (l r : BitVec 64) : Except Fault (Option (BitVec 64)) := do
  if 0 ≤ r.toInt then return some (← plainShr l (if r.toInt < 63 then r else 63))
  else return none

/-- Folding with machine words. Where nothing is checked, an overflow is a fault. -/
def foldWords (op : Token) (l r : BitVec 64) : Except Fault (Option (BitVec 64)) :=
  match op with
  | .add => return if l.saddOverflow r then none else some (l + r)
  | .sub => return if l.ssubOverflow r then none else some (l - r)
  | .mul => return if l.smulOverflow r then none else some (l * r)
  | .truncDiv => return if r = 0 ∨ l.sdivOverflow r = true then none else some (l.sdiv r)
  | .mod => foldModWords l r
  | .shl => foldShlWords l r
  | .shr => foldShrWords l r
  | .bitAnd => return some (l &&& r)
  | .bitOr => return some (l ||| r)
  | .bitXor => return some (l ^^^ r)
  | _ => return none

section Words

variable {a b : BitVec 64}

theorem ite_eq_check {x : Int} {c : Bool} {z : BitVec 64} (hover : c = true ↔ ¬ Word.Fits x)
    (hz : c = false → z.toInt = x) :
    (if c then none else some z) = (Word.check x).map Word.bits := by
  cases c with
  | true => rw [Word.check_eq_none_iff.mpr (hover.mp rfl)]; rfl
  | false =>
    have hfits : Word.Fits x := by simpa using hover
    rw [Word.check, if_pos hfits, ← hz rfl]
    simp [Word.bits_toInt]

theorem saddOverflow_iff : a.saddOverflow b = true ↔ ¬ Word.Fits (a.toInt + b.toInt) := by
  rw [Word.fits_iff, BitVec.saddOverflow]
  simp
  omega

theorem ssubOverflow_iff : a.ssubOverflow b = true ↔ ¬ Word.Fits (a.toInt - b.toInt) := by
  rw [Word.fits_iff, BitVec.ssubOverflow]
  simp
  omega

theorem smulOverflow_iff : a.smulOverflow b = true ↔ ¬ Word.Fits (a.toInt * b.toInt) := by
  rw [Word.fits_iff, BitVec.smulOverflow]
  simp
  omega

theorem toInt_ne_zero (h : a ≠ 0) : a.toInt ≠ 0 :=
  fun hzero => h (BitVec.toInt_inj.mp (hzero.trans BitVec.toInt_zero.symm))

theorem toInt_sdiv (h : a.sdivOverflow b = false) : (a.sdiv b).toInt = a.toInt.tdiv b.toInt := by
  refine BitVec.toInt_sdiv_of_ne_or_ne a b (not_and_or.mp ?_)
  rintro ⟨rfl, rfl⟩
  revert h
  decide

theorem sdivOverflow_iff : a.sdivOverflow b = true ↔ ¬ Word.Fits (a.toInt.tdiv b.toInt) := by
  cases hover : a.sdivOverflow b with
  | false => simp [← toInt_sdiv hover, Word.fits_toInt]
  | true =>
    simp only [BitVec.sdivOverflow_eq, Bool.and_eq_true, decide_eq_true_eq] at hover
    obtain ⟨⟨-, rfl⟩, rfl⟩ := hover
    decide

theorem toNat_of_nonneg (h : 0 ≤ a.toInt) : a.toNat = a.toInt.toNat := by
  rw [BitVec.toInt_eq_toNat_cond] at *
  split at * <;> omega

theorem toInt_shiftLeft (n : Nat) : (a <<< n).toInt = (a.toInt * 2 ^ n).bmod (2 ^ 64) := by
  rw [BitVec.toInt_shiftLeft, BitVec.toInt_eq_toNat_bmod, Int.bmod_mul_bmod, Nat.shiftLeft_eq]
  norm_cast

theorem toInt_shiftLeft_of_fits {n : Nat} (h : Word.Fits (a.toInt * 2 ^ n)) : (a <<< n).toInt = a.toInt * 2 ^ n := by
  obtain ⟨hlow, hhigh⟩ := Word.fits_iff.mp h
  rw [toInt_shiftLeft, Int.bmod_eq_of_le (by omega) (by omega)]

theorem shiftRight_shiftLeft_iff {n : Nat} (hn : n < 64) :
    (a <<< n).sshiftRight n = a ↔ Word.Fits (a.toInt * 2 ^ n) := by
  have hpow : (0 : Int) < 2 ^ n := by positivity
  rw [← BitVec.toInt_inj, BitVec.toInt_sshiftRight, Int.shiftRight_eq_div_pow]
  push_cast
  constructor
  · intro h
    -- What the word wraps around by is a multiple of what is shifted by, so that only zeros were shifted out.
    have hdvd : (2 : Int) ^ n ∣ (a <<< n).toInt := by
      rw [toInt_shiftLeft, Int.bmod_eq_self_sub_mul_bdiv]
      exact dvd_sub (dvd_mul_left _ _) (dvd_mul_of_dvd_left (by exact_mod_cast pow_dvd_pow 2 hn.le) _)
    rw [← h, Int.ediv_mul_cancel hdvd]
    exact Word.fits_toInt _
  · intro h
    rw [toInt_shiftLeft_of_fits h]
    exact Int.mul_ediv_cancel _ hpow.ne'

theorem emod_eq_of_tmod {x y : Int} (hy : y ≠ 0) :
    x % y = if 0 ≤ x.tmod y then x.tmod y else if y < 0 then x.tmod y - y else x.tmod y + y := by
  have hmod := Int.tmod_eq_emod (a := x) (b := y)
  have hpos := Int.emod_nonneg x hy
  have hlt := Int.emod_lt x hy
  split at hmod
  case isTrue => rw [if_pos (by omega), hmod, Nat.cast_zero, sub_zero]
  case isFalse =>
    rw [if_neg (by omega), hmod]
    split <;> omega

theorem plainAdd_eq (h : Word.Fits (a.toInt + b.toInt)) : plainAdd a b = .ok (Word.bits (a.toInt + b.toInt)) := by
  have hover : ¬ a.saddOverflow b = true := fun hover => saddOverflow_iff.mp hover h
  rw [plainAdd, if_neg hover, ← BitVec.toInt_add_of_not_saddOverflow hover, Word.bits_toInt]
  rfl

theorem plainSub_eq (h : Word.Fits (a.toInt - b.toInt)) : plainSub a b = .ok (Word.bits (a.toInt - b.toInt)) := by
  have hover : ¬ a.ssubOverflow b = true := fun hover => ssubOverflow_iff.mp hover h
  rw [plainSub, if_neg hover, ← BitVec.toInt_sub_of_not_ssubOverflow hover, Word.bits_toInt]
  rfl

theorem plainShr_eq (h : 0 ≤ b.toInt) (h' : b.toInt < 64) :
    plainShr a b = .ok (Word.bits (a.toInt >>> b.toInt.toNat)) := by
  rw [plainShr, if_pos ⟨h, h'⟩, ← toNat_of_nonneg h, ← BitVec.toInt_sshiftRight, Word.bits_toInt]
  rfl

theorem foldModWords_eq : foldModWords a b = .ok ((foldSmiOp .mod a.toInt b.toInt).map Word.bits) := by
  unfold foldModWords
  by_cases hb : b = 0
  · rw [if_pos (.inl hb), hb]
    rfl
  have hne := toInt_ne_zero hb
  simp only [foldSmiOp, if_neg hne]
  by_cases hover : a.sdivOverflow b = true
  · rw [if_pos (.inr hover), Word.check_eq_none_iff.mpr (sdivOverflow_iff.mp hover)]
    rfl
  have hfits : Word.Fits (a.toInt.tdiv b.toInt) := not_not.mp (mt sdivOverflow_iff.mpr hover)
  have hmod : Word.Fits (a.toInt % b.toInt) := Word.fits_emod (Word.fits_toInt b) hne
  rw [if_neg (by tauto), Word.check, if_pos hfits]
  simp only [Option.map_some]
  rw [emod_eq_of_tmod hne, ← BitVec.toInt_srem] at hmod ⊢
  split at hmod
  case isTrue hpos =>
    rw [if_pos hpos, if_pos hpos, Word.bits_toInt]
    rfl
  case isFalse hpos =>
    rw [if_neg hpos, if_neg hpos]
    split at hmod
    case isTrue hneg =>
      rw [if_pos hneg, if_pos hneg, plainSub_eq hmod]
      rfl
    case isFalse hneg =>
      rw [if_neg hneg, if_neg hneg, plainAdd_eq hmod]
      rfl

theorem foldShlWords_eq : foldShlWords a b = .ok ((foldSmiOp .shl a.toInt b.toInt).map Word.bits) := by
  unfold foldShlWords
  simp only [foldSmiOp]
  split
  case isFalse => rfl
  case isTrue h =>
    have hback := shiftRight_shiftLeft_iff (a := a) (n := b.toInt.toNat) (by omega)
    rw [plainShr_eq h.1 h.2, toNat_of_nonneg h.1, ← BitVec.toInt_sshiftRight, Word.bits_toInt, Int.shiftLeft_eq,
      Word.check]
    show Except.ok (if _ then _ else _) = _
    split
    case isTrue hsame =>
      have hfits := hback.mp hsame
      rw [if_pos hfits, ← toInt_shiftLeft_of_fits hfits, Option.map_some, Word.bits_toInt]
    case isFalse hlost =>
      rw [if_neg (mt hback.mpr hlost)]
      rfl

theorem foldShrWords_eq : foldShrWords a b = .ok ((foldSmiOp .shr a.toInt b.toInt).map Word.bits) := by
  unfold foldShrWords
  simp only [foldSmiOp]
  split
  case isFalse => rfl
  case isTrue h =>
    split
    case isTrue hlt =>
      rw [plainShr_eq h (by omega), min_eq_left hlt.le]
      rfl
    case isFalse hge =>
      rw [plainShr_eq (by decide) (by decide), min_eq_right (by omega)]
      rfl

theorem foldTruncDivWords_eq :
    (if b = 0 ∨ a.sdivOverflow b = true then none else some (a.sdiv b)) =
      (foldSmiOp .truncDiv a.toInt b.toInt).map Word.bits := by
  by_cases hb : b = 0
  · rw [if_pos (.inl hb), hb]
    rfl
  simp only [foldSmiOp, if_neg (toInt_ne_zero hb), ← ite_eq_check sdivOverflow_iff toInt_sdiv, hb, false_or]

theorem foldWords_eq (op : Token) : foldWords op a b = .ok ((foldSmiOp op a.toInt b.toInt).map Word.bits) := by
  unfold foldWords
  split
  case h_1 =>
    exact congrArg Except.ok (ite_eq_check saddOverflow_iff fun h => BitVec.toInt_add_of_not_saddOverflow (by simp [h]))
  case h_2 =>
    exact congrArg Except.ok (ite_eq_check ssubOverflow_iff fun h => BitVec.toInt_sub_of_not_ssubOverflow (by simp [h]))
  case h_3 =>
    exact congrArg Except.ok (ite_eq_check smulOverflow_iff fun h => BitVec.toInt_mul_of_not_smulOverflow (by simp [h]))
  case h_4 => exact congrArg Except.ok foldTruncDivWords_eq
  case h_5 => exact foldModWords_eq
  case h_6 => exact foldShlWords_eq
  case h_7 => exact foldShrWords_eq
  case h_8 | h_9 | h_10 =>
    unfold foldSmiOp Word.and Word.or Word.xor
    simp only [Option.map_some, Word.bits_toInt]
    rfl
  case h_11 =>
    unfold foldSmiOp
    split <;> first | contradiction | rfl

end Words

/-- Folding finds words that are exact results. It gives up sums, differences, products, quotients and shifts to the
left by less than a word exactly if there is no result that is a word, and carried out in words it faults nowhere. -/
theorem foldSmiOp_exact (hl : Word.Fits l) (hr : Word.Fits r) :
    (∀ op v, foldSmiOp op l r = some v → Word.Fits v ∧ IsExact op l r v) ∧
    (foldSmiOp .add l r = none ↔ ¬ Word.Fits (l + r)) ∧
    (foldSmiOp .sub l r = none ↔ ¬ Word.Fits (l - r)) ∧
    (foldSmiOp .mul l r = none ↔ ¬ Word.Fits (l * r)) ∧
    (foldSmiOp .truncDiv l r = none ↔ r = 0 ∨ ¬ Word.Fits (l.tdiv r)) ∧
    (0 ≤ r → r < 64 → (foldSmiOp .shl l r = none ↔ ¬ Word.Fits (l * 2 ^ r.toNat))) ∧
    ∀ op, foldWords op (Word.bits l) (Word.bits r) = .ok ((foldSmiOp op l r).map Word.bits) := by
  refine ⟨fun op v h => ⟨fits_of_fold hl hr h, isExact_of_exactResult hl hr (Knowledge.exactResult_of_fold hl h)⟩,
    Word.check_eq_none_iff, Word.check_eq_none_iff, Word.check_eq_none_iff, ?_, fun hpos hlt => ?_, fun op => ?_⟩
  · rw [show foldSmiOp .truncDiv l r = if r = 0 then none else Word.check (l.tdiv r) from rfl]
    split
    · simp [*]
    · simp [*, Word.check_eq_none_iff]
  · simp only [foldSmiOp, if_pos (And.intro hpos hlt), Int.shiftLeft_eq]
    exact Word.check_eq_none_iff
  · rw [foldWords_eq, Word.toInt_bits hl, Word.toInt_bits hr]

theorem foldSmiOp_exact_at_negatives :
    foldSmiOp .truncDiv Word.least (-1) = none ∧ foldSmiOp .mod (-7) (-3) = some 2 ∧ IsExact .mod (-7) (-3) 2 :=
  ⟨(foldSmiOp_exact (by decide) (by decide)).2.2.2.2.1.mpr (.inr (by decide)), by decide,
    ((foldSmiOp_exact (by decide) (by decide)).1 .mod 2 (by decide)).2⟩

end Midend
