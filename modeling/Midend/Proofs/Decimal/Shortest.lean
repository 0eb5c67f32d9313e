import Mathlib.Algebra.Order.Field.Power
import Mathlib.Algebra.Order.Floor.Semifield
import Mathlib.Data.Rat.Floor
import Mathlib.Tactic.FieldSimp
import Mathlib.Tactic.Linarith
import Mathlib.Tactic.NormNum
import Midend.Decimal.Shortest

/-! # Shortest decimals read back

The decimal that is written for a binary number lies in the interval of the numbers that are rounded to it: seventeen
digits always suffice to find one. The intervals of different numbers have nothing in common, so the decimal gives the
number back.
-/

namespace Midend.Decimal

variable {b c : Binary} {r s : Ratio} {x : ℚ}

/-! ## Ratios -/

def Ratio.toRat (r : Ratio) : ℚ := r.num / r.den

theorem Ratio.den_scaled (n : Nat) (e : Int) : 0 < (Ratio.scaled n e).den := by
  unfold Ratio.scaled
  split
  · exact Nat.one_pos
  · exact Nat.pos_of_ne_zero (by simp [Nat.shiftLeft_eq])

theorem Ratio.den_decimal (d : Nat) (e : Int) : 0 < (Ratio.decimal d e).den := by
  unfold Ratio.decimal
  split
  · exact Nat.one_pos
  · exact Nat.pow_pos (by decide)

theorem Ratio.toRat_scaled (n : Nat) (e : Int) : (Ratio.scaled n e).toRat = n * 2 ^ e := by
  unfold Ratio.scaled Ratio.toRat
  split
  case isTrue h =>
    obtain ⟨k, rfl⟩ := Int.eq_ofNat_of_zero_le h
    simp [Nat.shiftLeft_eq]
  case isFalse h =>
    obtain ⟨k, rfl⟩ : ∃ k : Nat, e = -(k : Int) := ⟨(-e).toNat, by omega⟩
    simp [Nat.shiftLeft_eq, div_eq_mul_inv]

theorem Ratio.toRat_decimal (d : Nat) (e : Int) : (Ratio.decimal d e).toRat = d * 10 ^ e := by
  unfold Ratio.decimal Ratio.toRat
  split
  case isTrue h =>
    obtain ⟨k, rfl⟩ := Int.eq_ofNat_of_zero_le h
    simp
  case isFalse h =>
    obtain ⟨k, rfl⟩ : ∃ k : Nat, e = -(k : Int) := ⟨(-e).toNat, by omega⟩
    simp [div_eq_mul_inv]

theorem Ratio.le_iff (hr : 0 < r.den) (hs : 0 < s.den) : r.le s = true ↔ r.toRat ≤ s.toRat := by
  rw [Ratio.le, decide_eq_true_iff, Ratio.toRat, Ratio.toRat,
    div_le_div_iff₀ (Nat.cast_pos.mpr hr) (Nat.cast_pos.mpr hs)]
  exact_mod_cast Iff.rfl

theorem Ratio.lt_iff (hr : 0 < r.den) (hs : 0 < s.den) : r.lt s = true ↔ r.toRat < s.toRat := by
  rw [Ratio.lt, decide_eq_true_iff, Ratio.toRat, Ratio.toRat,
    div_lt_div_iff₀ (Nat.cast_pos.mpr hr) (Nat.cast_pos.mpr hs)]
  exact_mod_cast Iff.rfl

/-! ## The numbers that are rounded to one -/

namespace Binary

def toRat (b : Binary) : ℚ := b.mantissa * 2 ^ b.exponent

/-- How far the interval reaches down, in units of the last place. -/
def reach (b : Binary) : ℚ := if b.narrow then 1 / 4 else 1 / 2

def Takes (b : Binary) (x : ℚ) : Prop :=
  if b.mantissa % 2 = 0 then
    (b.mantissa - b.reach) * 2 ^ b.exponent ≤ x ∧ x ≤ (b.mantissa + 1 / 2) * 2 ^ b.exponent
  else (b.mantissa - b.reach) * 2 ^ b.exponent < x ∧ x < (b.mantissa + 1 / 2) * 2 ^ b.exponent

/-- The binary numbers of 53 bits that doubles stand for, in their only form. -/
structure Normal (b : Binary) : Prop where
  pos : 1 ≤ b.mantissa
  lt : b.mantissa < 2 ^ 53
  least : -1074 ≤ b.exponent
  most : b.exponent ≤ 971
  leading : -1074 < b.exponent → 2 ^ 52 ≤ b.mantissa
  narrow_iff : b.narrow = true ↔ b.mantissa = 2 ^ 52 ∧ -1074 < b.exponent

theorem quarter (e : Int) : (2 : ℚ) ^ e = 2 ^ (e - 2) * 4 := by
  rw [zpow_sub₀ (by norm_num)]
  norm_num

theorem toRat_nonneg : 0 ≤ b.toRat := mul_nonneg (Nat.cast_nonneg _) (zpow_nonneg (by norm_num) _)

theorem toRat_value : b.value.toRat = b.toRat := by
  rw [value, Ratio.toRat_scaled, toRat, quarter b.exponent]
  push_cast
  ring

theorem toRat_upper : b.upper.toRat = (b.mantissa + 1 / 2) * 2 ^ b.exponent := by
  rw [upper, Ratio.toRat_scaled, quarter b.exponent]
  push_cast
  ring

theorem toRat_lower (hb : 1 ≤ b.mantissa) : b.lower.toRat = (b.mantissa - b.reach) * 2 ^ b.exponent := by
  rw [lower, Ratio.toRat_scaled, quarter b.exponent, reach, Nat.cast_sub (by split <;> omega)]
  split <;> push_cast <;> ring

theorem readsBack_decimal (hb : 1 ≤ b.mantissa) (d : Nat) (e : Int) :
    b.readsBack (.decimal d e) = true ↔ b.Takes (d * 10 ^ e) := by
  have hlower : 0 < b.lower.den := Ratio.den_scaled _ _
  have hupper : 0 < b.upper.den := Ratio.den_scaled _ _
  have hdecimal : 0 < (Ratio.decimal d e).den := Ratio.den_decimal d e
  unfold readsBack Takes
  split
  · rw [Bool.and_eq_true, Ratio.le_iff hlower hdecimal, Ratio.le_iff hdecimal hupper, toRat_lower hb, toRat_upper,
      Ratio.toRat_decimal]
  · rw [Bool.and_eq_true, Ratio.lt_iff hlower hdecimal, Ratio.lt_iff hdecimal hupper, toRat_lower hb, toRat_upper,
      Ratio.toRat_decimal]

theorem reach_pos : 0 < b.reach := by unfold reach; split <;> norm_num

theorem reach_le : b.reach ≤ 1 / 2 := by unfold reach; split <;> norm_num

theorem Takes.bounds (h : b.Takes x) :
    (b.mantissa - b.reach) * 2 ^ b.exponent ≤ x ∧ x ≤ (b.mantissa + 1 / 2) * 2 ^ b.exponent := by
  unfold Takes at h
  split at h
  · exact h
  · exact ⟨h.1.le, h.2.le⟩

theorem Takes.bounds_of_odd (h : b.Takes x) (hodd : b.mantissa % 2 = 1) :
    (b.mantissa - b.reach) * 2 ^ b.exponent < x ∧ x < (b.mantissa + 1 / 2) * 2 ^ b.exponent := by
  rwa [Takes, if_neg (by omega)] at h

theorem takes_pos (hb : b.Normal) (h : b.Takes x) : 0 < x := by
  have hpow : (0 : ℚ) < 2 ^ b.exponent := by positivity
  have hone : (1 : ℚ) ≤ b.mantissa := by exact_mod_cast hb.pos
  have hreach := b.reach_le
  exact lt_of_lt_of_le (mul_pos (by linarith) hpow) h.bounds.1

/-! ## Different intervals have nothing in common -/

theorem Takes.le_of_exponent_eq (hx : b.Takes x) (hx' : c.Takes x) (he : b.exponent = c.exponent) :
    c.mantissa ≤ b.mantissa := by
  by_contra hlt
  have hpow : (0 : ℚ) < 2 ^ c.exponent := by positivity
  have hreach := c.reach_le
  rcases Nat.mod_two_eq_zero_or_one b.mantissa with heven | hodd
  · rcases Nat.mod_two_eq_zero_or_one c.mantissa with heven' | hodd'
    · -- two even mantissas are two apart
      have hstep : (b.mantissa : ℚ) + 2 ≤ c.mantissa := by exact_mod_cast (by omega : b.mantissa + 2 ≤ c.mantissa)
      have hle := hx'.bounds.1.trans (he ▸ hx.bounds.2)
      linarith [le_of_mul_le_mul_right hle hpow]
    · have hstep : (b.mantissa : ℚ) + 1 ≤ c.mantissa := by exact_mod_cast (by omega : b.mantissa + 1 ≤ c.mantissa)
      have hlt' := (hx'.bounds_of_odd hodd').1.trans_le (he ▸ hx.bounds.2)
      linarith [lt_of_mul_lt_mul_right hlt' hpow.le]
  · have hstep : (b.mantissa : ℚ) + 1 ≤ c.mantissa := by exact_mod_cast (by omega : b.mantissa + 1 ≤ c.mantissa)
    have hlt' := hx'.bounds.1.trans_lt (he ▸ (hx.bounds_of_odd hodd).2)
    linarith [lt_of_mul_lt_mul_right hlt' hpow.le]

theorem Takes.lt_top (hb : b.Normal) (hx : b.Takes x) : x < (2 ^ 53 - 1 / 2) * 2 ^ b.exponent := by
  have hpow : (0 : ℚ) < 2 ^ b.exponent := by positivity
  obtain htop | hbelow := eq_or_lt_of_le (Nat.le_sub_one_of_lt hb.lt)
  · have h := (hx.bounds_of_odd (by rw [htop]; decide)).2
    rw [htop] at h
    refine h.trans_eq ?_
    norm_num
  · have hle : (b.mantissa : ℚ) + 1 / 2 < 2 ^ 53 - 1 / 2 := by
      have : (b.mantissa : ℚ) + 2 ≤ 2 ^ 53 := by exact_mod_cast (by omega : b.mantissa + 2 ≤ 2 ^ 53)
      linarith
    exact hx.bounds.2.trans_lt (mul_lt_mul_of_pos_right hle hpow)

theorem Takes.exponent_le (hb : b.Normal) (hc : c.Normal) (hx : b.Takes x) (hx' : c.Takes x) :
    c.exponent ≤ b.exponent := by
  by_contra hlt
  have hpow : (0 : ℚ) < 2 ^ b.exponent := by positivity
  have hleast := hb.least
  have hdouble : (2 : ℚ) * 2 ^ b.exponent ≤ 2 ^ c.exponent := by
    rw [← zpow_one_add₀ (by norm_num)]
    exact zpow_le_zpow_right₀ (by norm_num) (by omega)
  have hbottom : (2 ^ 52 - 1 / 4 : ℚ) ≤ c.mantissa - c.reach := by
    obtain heq | hgt := eq_or_lt_of_le (hc.leading (by omega))
    · have hnarrow : c.narrow = true := hc.narrow_iff.mpr ⟨heq.symm, by omega⟩
      rw [reach, if_pos hnarrow, ← heq]
      norm_num
    · have : (2 ^ 52 + 1 : ℚ) ≤ c.mantissa := by exact_mod_cast hgt
      linarith [c.reach_le]
  have hlower : (2 ^ 52 - 1 / 4 : ℚ) * (2 * 2 ^ b.exponent) ≤ x :=
    (mul_le_mul hbottom hdouble (by positivity) (by linarith)).trans hx'.bounds.1
  linarith [hx.lt_top hb]

theorem Takes.unique (hb : b.Normal) (hc : c.Normal) (hx : b.Takes x) (hx' : c.Takes x) : b = c := by
  have hexponent : b.exponent = c.exponent :=
    le_antisymm (hx'.exponent_le hc hb hx) (hx.exponent_le hb hc hx')
  have hmantissa : b.mantissa = c.mantissa :=
    le_antisymm (hx'.le_of_exponent_eq hx hexponent.symm) (hx.le_of_exponent_eq hx' hexponent)
  have hnarrow : b.narrow = c.narrow := by
    rw [Bool.eq_iff_iff, hb.narrow_iff, hc.narrow_iff, hexponent, hmantissa]
  cases b
  cases c
  simp_all

/-! ## Seventeen digits suffice -/

end Binary

def Number.toRat (d : Number) : ℚ := d.digits * 10 ^ d.exponent

namespace Binary

/-- The decimal of `n` digits at or below `b`, without its exponent. -/
def below (b : Binary) (n : Nat) : Nat :=
  b.value.num * (Ratio.decimal 1 (b.magnitude - n)).den / (b.value.den * (Ratio.decimal 1 (b.magnitude - n)).num)

theorem below_eq (n : Nat) : b.below n = ⌊b.toRat / 10 ^ (b.magnitude - n)⌋₊ := by
  have hunit : (10 : ℚ) ^ (b.magnitude - n) = (Ratio.decimal 1 (b.magnitude - n)).toRat := by
    rw [Ratio.toRat_decimal, Nat.cast_one, one_mul]
  rw [hunit, ← toRat_value, below, Ratio.toRat, Ratio.toRat, div_div_div_eq, ← Nat.floor_div_eq_div (K := ℚ)]
  push_cast
  rfl

theorem below_le (n : Nat) : b.below n * 10 ^ (b.magnitude - n) ≤ b.toRat ∧
    b.toRat < (b.below n + 1) * 10 ^ (b.magnitude - n) := by
  have hpow : (0 : ℚ) < 10 ^ (b.magnitude - n) := by positivity
  have hnonneg : 0 ≤ b.toRat / 10 ^ (b.magnitude - n) := div_nonneg toRat_nonneg hpow.le
  rw [below_eq]
  exact ⟨(le_div_iff₀ hpow).mp (Nat.floor_le hnonneg), (div_lt_iff₀ hpow).mp (Nat.lt_floor_add_one _)⟩

theorem takes_of_atDigits? (hb : 1 ≤ b.mantissa) {n : Nat} {d : Number} (h : b.atDigits? n = some d) :
    b.Takes d.toRat := by
  unfold atDigits? at h
  dsimp only at h
  split at h
  case isTrue hup =>
    cases h
    exact (readsBack_decimal hb _ _).mp (Bool.and_eq_true_iff.mp hup).1
  case isFalse =>
    split at h <;> cases h
    exact (readsBack_decimal hb _ _).mp ‹_›

theorem exists_atDigits? (hb : 1 ≤ b.mantissa) {n : Nat}
    (h : b.Takes (b.below n * 10 ^ (b.magnitude - n)) ∨ b.Takes ((b.below n + 1) * 10 ^ (b.magnitude - n))) :
    ∃ d, b.atDigits? n = some d := by
  rw [← Nat.cast_succ, ← readsBack_decimal hb, ← readsBack_decimal hb] at h
  unfold below at h
  unfold atDigits?
  dsimp only
  split
  case isTrue => exact ⟨_, rfl⟩
  case isFalse hup =>
    split
    case isTrue => exact ⟨_, rfl⟩
    case isFalse hdown =>
      have hup' := h.resolve_left hdown
      rw [Bool.not_eq_true] at hdown
      simp only [hdown, Nat.succ_eq_add_one] at hup hup'
      simp [hup'] at hup

theorem value_lt_iff (j : Nat) :
    b.value.lt (.decimal 1 (Int.subNatNat j 330)) = true ↔ b.toRat < 10 ^ ((j : Int) - 330) := by
  have hden : 0 < b.value.den := Ratio.den_scaled _ _
  rw [Ratio.lt_iff hden (Ratio.den_decimal _ _), toRat_value, Ratio.toRat_decimal, Int.subNatNat_eq_coe, Nat.cast_one,
    one_mul]
  rfl

theorem toRat_bounds (hb : b.Normal) : (10 : ℚ) ^ (-330 : Int) ≤ b.toRat ∧ b.toRat < 10 ^ (309 : Int) := by
  have hone : (1 : ℚ) ≤ b.mantissa := by exact_mod_cast hb.pos
  have hlt : (b.mantissa : ℚ) < 2 ^ 53 := by exact_mod_cast hb.lt
  have hleast : (2 : ℚ) ^ (-1074 : Int) ≤ 2 ^ b.exponent := zpow_le_zpow_right₀ (by norm_num) hb.least
  have hmost : (2 : ℚ) ^ b.exponent ≤ 2 ^ (971 : Int) := zpow_le_zpow_right₀ (by norm_num) hb.most
  have hsmall : (2 : ℚ) ^ 1074 ≤ 10 ^ 330 := by exact_mod_cast (by decide +kernel : 2 ^ 1074 ≤ 10 ^ 330)
  have hlarge : (2 : ℚ) ^ 1024 ≤ 10 ^ 309 := by exact_mod_cast (by decide +kernel : 2 ^ 1024 ≤ 10 ^ 309)
  constructor
  · calc (10 : ℚ) ^ (-330 : Int) ≤ 1 * 2 ^ (-1074 : Int) := by
          rw [one_mul, zpow_neg, zpow_neg]
          exact inv_anti₀ (by positivity) hsmall
      _ ≤ b.mantissa * 2 ^ b.exponent := mul_le_mul hone hleast (by positivity) (by positivity)
  · calc b.mantissa * (2 : ℚ) ^ b.exponent < 2 ^ 53 * 2 ^ (971 : Int) :=
          mul_lt_mul hlt hmost (by positivity) (by positivity)
      _ = 2 ^ 1024 := by rw [show (971 : Int) = (971 : Nat) from rfl, zpow_natCast, ← pow_add]
      _ ≤ 10 ^ (309 : Int) := hlarge

theorem magnitude_le (hb : b.Normal) : (10 : ℚ) ^ (b.magnitude - 1) ≤ b.toRat := by
  obtain ⟨hleast, hmost⟩ := toRat_bounds hb
  obtain ⟨k, hk⟩ : ∃ k, (List.range 640).find? (fun j => b.value.lt (.decimal 1 (Int.subNatNat j 330))) = some k := by
    refine Option.isSome_iff_exists.mp (List.find?_isSome.mpr ⟨639, List.mem_range.mpr (by omega), ?_⟩)
    rw [value_lt_iff]
    exact hmost
  have hmagnitude : b.magnitude = (k : Int) - 330 := by
    unfold magnitude
    dsimp only
    rw [hk, Option.getD_some, Int.subNatNat_eq_coe]
    rfl
  rw [hmagnitude]
  cases k with
  | zero => exact (zpow_le_zpow_right₀ (by norm_num) (by omega)).trans hleast
  | succ k =>
    -- the one before was passed over
    have hpassed := (List.find?_range_eq_some.mp hk).2.2 k (Nat.lt_succ_self k)
    rw [Bool.not_eq_true', ← Bool.not_eq_true, value_lt_iff, not_lt] at hpassed
    rwa [Nat.cast_succ, show (k : Int) + 1 - 330 - 1 = k - 330 by ring]

/-- The decimals of seventeen digits are closer together than the numbers that are rounded to different ones. -/
theorem unit_lt (hb : b.Normal) : (10 : ℚ) ^ (b.magnitude - 17) < (1 / 2 + b.reach) * 2 ^ b.exponent := by
  have hpow : (0 : ℚ) < 2 ^ b.exponent := by positivity
  have hunit : (10 : ℚ) ^ (b.magnitude - 17) = 10 ^ (b.magnitude - 1) / 10 ^ 16 := by
    rw [show b.magnitude - 17 = b.magnitude - 1 - 16 by ring, zpow_sub₀ (by norm_num)]
    norm_num
  have hle : (10 : ℚ) ^ (b.magnitude - 17) ≤ b.mantissa / 10 ^ 16 * 2 ^ b.exponent := by
    rw [hunit, div_mul_eq_mul_div]
    exact div_le_div_of_nonneg_right (magnitude_le hb) (by norm_num)
  refine hle.trans_lt (mul_lt_mul_of_pos_right ?_ hpow)
  unfold reach
  split
  case isTrue hnarrow =>
    rw [(hb.narrow_iff.mp hnarrow).1]
    norm_num
  case isFalse =>
    have hlt : (b.mantissa : ℚ) < 2 ^ 53 := by exact_mod_cast hb.lt
    rw [div_lt_iff₀ (by norm_num)]
    linarith

theorem seventeen_suffice (hb : b.Normal) : b.Takes (b.below 17 * 10 ^ (b.magnitude - 17)) ∨
    b.Takes ((b.below 17 + 1) * 10 ^ (b.magnitude - 17)) := by
  have hunit := unit_lt hb
  have hpow : (0 : ℚ) < 2 ^ b.exponent := by positivity
  have hreach := mul_pos (reach_pos (b := b)) hpow
  obtain ⟨hdown, hup⟩ := below_le (b := b) 17
  rw [Nat.cast_ofNat] at hdown hup
  unfold toRat at hdown hup
  by_cases hlow : (b.mantissa - b.reach) * 2 ^ b.exponent < b.below 17 * 10 ^ (b.magnitude - 17)
  · left
    unfold Takes
    split <;> constructor <;> linarith
  · right
    unfold Takes
    split <;> constructor <;> linarith

theorem takes_shortest (hb : b.Normal) : b.Takes b.shortest.toRat := by
  have hsome : ((List.range 17).findSome? fun n => b.atDigits? (n + 1)).isSome := by
    obtain ⟨d, hd⟩ := exists_atDigits? hb.pos (seventeen_suffice hb)
    exact List.findSome?_isSome_iff.mpr ⟨16, by decide, by rw [hd]; rfl⟩
  obtain ⟨d, hd⟩ := Option.isSome_iff_exists.mp hsome
  obtain ⟨n, -, hn⟩ := List.exists_of_findSome?_eq_some hd
  rw [shortest, hd]
  exact takes_of_atDigits? hb.pos hn

/-- Numbers of one shortest decimal are the same. -/
theorem eq_of_shortest_eq (hb : b.Normal) (hc : c.Normal) (h : b.shortest.toRat = c.shortest.toRat) : b = c :=
  (takes_shortest hb).unique hb hc (h ▸ takes_shortest hc)

end Binary

end Midend.Decimal
