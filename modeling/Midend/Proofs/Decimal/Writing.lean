import Mathlib
import Midend.Proofs.Decimal.Shortest

/-! # Written decimals

Whatever the style, the text of a decimal spells the decimal, and a text spells one number only.
-/

namespace Midend.Decimal

variable {ds cs text : List Char} {v w : ℚ} {n : Nat} {point : Int}

/-! ## Digits -/

def fraction (ds : List Char) : ℚ := Nat.ofDigitChars 10 ds 0 / 10 ^ ds.length

theorem fraction_nil : fraction [] = 0 := by simp [fraction]

theorem fraction_append_zeros : fraction (ds ++ List.replicate n '0') = fraction ds := by
  rw [fraction, fraction, Nat.ofDigitChars_append, Nat.ofDigitChars_replicate_zero, List.length_append,
    List.length_replicate, pow_add]
  push_cast
  field_simp

theorem fraction_zeros_append : fraction (List.replicate n '0' ++ ds) = fraction ds / 10 ^ n := by
  rw [fraction, fraction, Nat.ofDigitChars_append, Nat.ofDigitChars_replicate_zero, List.length_append,
    List.length_replicate, pow_add, mul_zero]
  field_simp

theorem fraction_mul_pow : fraction ds * 10 ^ ds.length = Nat.ofDigitChars 10 ds 0 := by
  unfold fraction
  field_simp

theorem exists_zeros (cs : List Char) :
    ∃ n, (cs.reverse.dropWhile (· == '0')).reverse ++ List.replicate n '0' = cs := by
  refine ⟨(cs.reverse.takeWhile (· == '0')).length, ?_⟩
  have hzeros : cs.reverse.takeWhile (· == '0') = List.replicate (cs.reverse.takeWhile (· == '0')).length '0' :=
    List.eq_replicate_iff.mpr ⟨rfl, fun c hc => by simpa using List.mem_takeWhile_imp hc⟩
  rw [← List.reverse_inj, List.reverse_append, List.reverse_reverse, List.reverse_replicate, ← hzeros,
    List.takeWhile_append_dropWhile]

theorem fraction_significant (d : Number) : fraction d.significant.1 * 10 ^ d.significant.2 = d.toRat := by
  obtain ⟨n, hn⟩ := exists_zeros (Nat.toDigits 10 d.digits)
  have hvalue : fraction (Nat.toDigits 10 d.digits) * _ = _ := fraction_mul_pow
  rw [Nat.ofDigitChars_ten_toDigits, ← hn, fraction_append_zeros, hn] at hvalue
  unfold Number.significant Number.toRat
  rw [zpow_add₀ (by norm_num), zpow_natCast, ← hvalue]
  ring

theorem isDigit_of_mem_significant (d : Number) : ∀ c ∈ d.significant.1, c.isDigit = true := by
  intro c hc
  refine Nat.isDigit_of_mem_toDigits (b := 10) (n := d.digits) (by decide) (by decide) ?_
  obtain ⟨n, hn⟩ := exists_zeros (Nat.toDigits 10 d.digits)
  rw [← hn]
  exact List.mem_append_left _ hc

theorem significant_ne_nil {d : Number} (hd : 0 < d.toRat) : d.significant.1 ≠ [] := by
  intro hnil
  have hzero := fraction_significant d
  rw [hnil, fraction_nil, zero_mul] at hzero
  exact hd.ne hzero

/-! ## Reading -/

def plain (cs : List Char) : ℚ :=
  Nat.ofDigitChars 10 (cs.filter (· ≠ '.')) 0 / 10 ^ ((cs.dropWhile (· ≠ '.')).length - 1)

/-- The text consists of digits with at most one point and, behind the letter, a power of ten. -/
inductive Spells : List Char → ℚ → Prop where
  | positional (cs : List Char) (hcs : 'e' ∉ cs) : Spells cs (plain cs)
  | scaled (cs : List Char) (hcs : 'e' ∉ cs) (lead : Int) :
    Spells (cs ++ 'e' :: lead.repr.toList) (plain cs * 10 ^ lead)

theorem append_cons_inj {x : Char} {as bs as' bs' : List Char} (has : x ∉ as) (has' : x ∉ as')
    (h : as ++ x :: bs = as' ++ x :: bs') : as = as' ∧ bs = bs' := by
  induction as generalizing as' with
  | nil =>
    cases as' with
    | nil => exact ⟨rfl, (List.cons.inj h).2⟩
    | cons a as' => exact absurd (List.cons.inj h).1 (fun heq => has' (by simp [heq]))
  | cons a as ih =>
    cases as' with
    | nil => exact absurd (List.cons.inj h).1 (fun heq => has (by simp [heq]))
    | cons a' as' =>
      obtain ⟨rfl, hrest⟩ := List.cons.inj h
      obtain ⟨rfl, rfl⟩ := ih (List.not_mem_of_not_mem_cons has) (List.not_mem_of_not_mem_cons has') hrest
      exact ⟨rfl, rfl⟩

theorem Spells.unique (hv : Spells text v) (hw : Spells text w) : v = w := by
  generalize htext : text = text' at hw
  cases hv with
  | positional cs hcs =>
    cases hw with
    | positional => rw [htext]
    | scaled => exact absurd (htext ▸ (by simp)) hcs
  | scaled cs hcs lead =>
    cases hw with
    | positional _ hcs' => exact absurd (htext ▸ (by simp)) hcs'
    | scaled cs' hcs' lead' =>
      obtain ⟨rfl, hlead⟩ := append_cons_inj hcs hcs' htext
      rw [Int.repr_inj.mp (String.toList_inj.mp hlead)]

theorem plain_point {fs : List Char} (hds : '.' ∉ ds) (hfs : '.' ∉ fs) :
    plain (ds ++ '.' :: fs) = fraction (ds ++ fs) * 10 ^ ds.length := by
  have hfilter : (ds ++ '.' :: fs).filter (· ≠ '.') = ds ++ fs := by
    have keep : ∀ {cs : List Char}, '.' ∉ cs → cs.filter (· ≠ '.') = cs := fun hcs =>
      List.filter_eq_self.mpr fun c hc => by
        have : c ≠ '.' := fun h => hcs (h ▸ hc)
        simpa using this
    rw [List.filter_append, List.filter_cons_of_neg (by simp), keep hds, keep hfs]
  have hdrop : (ds ++ '.' :: fs).dropWhile (· ≠ '.') = '.' :: fs := by
    rw [List.dropWhile_append_of_pos, List.dropWhile_cons_of_neg (by simp)]
    intro c hc
    have : c ≠ '.' := fun h => hds (h ▸ hc)
    simpa using this
  rw [plain, hfilter, hdrop, fraction, List.length_append, pow_add, List.length_cons, Nat.add_sub_cancel]
  field_simp

theorem plain_whole (hds : '.' ∉ ds) : plain ds = fraction ds * 10 ^ ds.length := by
  have hkeep : ∀ c ∈ ds, decide (c ≠ '.') = true := fun c hc => by
    have : c ≠ '.' := fun h => hds (h ▸ hc)
    simpa using this
  rw [plain, List.filter_eq_self.mpr hkeep, List.dropWhile_eq_nil_iff.mpr hkeep, fraction_mul_pow]
  simp

/-! ## Writing -/

theorem not_mem_of_isDigit {x : Char} (hx : x.isDigit = false) (hds : ∀ c ∈ ds, c.isDigit = true) : x ∉ ds :=
  fun h => by simp [hds x h] at hx

theorem isDigit_of_mem_zeros : ∀ c ∈ List.replicate n '0', c.isDigit = true := by
  intro c hc
  rw [(List.mem_replicate.mp hc).2]
  rfl

theorem write_eq (s : Style) : (s.write ds point).toList =
    if s.least ≤ point - 1 ∧ point - 1 ≤ s.most then
      if point ≤ 0 then '0' :: '.' :: (List.replicate (-point).toNat '0' ++ ds)
      else if point < ds.length then ds.take point.toNat ++ '.' :: ds.drop point.toNat
      else ds ++ List.replicate (point - ds.length).toNat '0' ++ ['.', '0']
    else ds.take 1 ++ (if (ds.drop 1).isEmpty then [] else '.' :: ds.drop 1) ++ 'e' :: (point - 1).repr.toList := by
  unfold Style.write
  dsimp only
  split
  · split
    · simp
    · split <;> simp
  · simp [toString]

theorem spells_point {is fs : List Char} (his : ∀ c ∈ is, c.isDigit = true) (hfs : ∀ c ∈ fs, c.isDigit = true)
    (hv : fraction (is ++ fs) * 10 ^ is.length = v) : Spells (is ++ '.' :: fs) v := by
  rw [← hv, ← plain_point (not_mem_of_isDigit rfl his) (not_mem_of_isDigit rfl hfs)]
  have his' : 'e' ∉ is := not_mem_of_isDigit rfl his
  have hfs' : 'e' ∉ fs := not_mem_of_isDigit rfl hfs
  exact .positional _ (by simp [his', hfs'])

theorem plain_leading (hds : ∀ c ∈ ds, c.isDigit = true) (hne : ds ≠ []) :
    'e' ∉ ds.take 1 ++ (if (ds.drop 1).isEmpty then [] else '.' :: ds.drop 1) ∧
      plain (ds.take 1 ++ (if (ds.drop 1).isEmpty then [] else '.' :: ds.drop 1)) = fraction ds * 10 := by
  obtain ⟨d, rest, rfl⟩ := List.exists_cons_of_ne_nil hne
  have hpoint : '.' ∉ d :: rest := not_mem_of_isDigit rfl hds
  have hletter : 'e' ∉ d :: rest := not_mem_of_isDigit rfl hds
  rw [List.mem_cons, not_or] at hpoint hletter
  rw [List.take_succ_cons, List.take_zero, List.drop_succ_cons, List.drop_zero]
  cases rest with
  | nil =>
    refine ⟨by simpa using hletter.1, ?_⟩
    rw [List.isEmpty_nil, if_pos rfl, List.append_nil, plain_whole (by simpa using hpoint.1)]
    simp
  | cons c cs =>
    refine ⟨by simpa using hletter, ?_⟩
    rw [List.isEmpty_cons, if_neg (by decide), plain_point (by simpa using hpoint.1) hpoint.2]
    simp

theorem spells_write (s : Style) (hds : ∀ c ∈ ds, c.isDigit = true) (hne : ds ≠ []) :
    Spells (s.write ds point).toList (fraction ds * 10 ^ point) := by
  rw [write_eq]
  split
  case isTrue =>
    split
    case isTrue hneg =>
      obtain ⟨k, rfl⟩ : ∃ k : Nat, point = -(k : Int) := ⟨(-point).toNat, by omega⟩
      rw [neg_neg, Int.toNat_natCast]
      show Spells (['0'] ++ '.' :: (List.replicate k '0' ++ ds)) _
      refine spells_point (isDigit_of_mem_zeros (n := 1)) ?_ ?_
      · intro c hc
        exact (List.mem_append.mp hc).elim (isDigit_of_mem_zeros c) (hds c)
      · rw [List.singleton_append, ← List.cons_append, ← List.replicate_succ, fraction_zeros_append, zpow_neg,
          zpow_natCast, pow_succ, List.length_singleton, pow_one]
        field_simp
    case isFalse hpos =>
      obtain ⟨k, rfl⟩ : ∃ k : Nat, point = k := ⟨point.toNat, by omega⟩
      rw [Int.toNat_natCast, zpow_natCast]
      split
      case isTrue hlt =>
        refine spells_point (fun c hc => hds c (List.mem_of_mem_take hc)) (fun c hc => hds c (List.mem_of_mem_drop hc))
          ?_
        rw [List.take_append_drop, List.length_take, Nat.min_eq_left (by omega)]
      case isFalse hge =>
        refine spells_point ?_ (isDigit_of_mem_zeros (n := 1)) ?_
        · intro c hc
          exact (List.mem_append.mp hc).elim (hds c) (isDigit_of_mem_zeros c)
        · rw [List.append_assoc, ← List.replicate_succ', fraction_append_zeros, List.length_append,
            List.length_replicate]
          congr 2
          omega
  case isFalse =>
    obtain ⟨hletter, hvalue⟩ := plain_leading hds hne
    have hscale : fraction ds * 10 ^ point = fraction ds * 10 * 10 ^ (point - 1) := by
      rw [mul_assoc, ← zpow_one_add₀ (by norm_num)]
      ring_nf
    rw [hscale, ← hvalue]
    exact .scaled _ hletter _

/-- A written decimal starts with a digit. -/
theorem head_write (s : Style) (hds : ∀ c ∈ ds, c.isDigit = true) (hne : ds ≠ []) :
    ∃ c rest, (s.write ds point).toList = c :: rest ∧ c.isDigit = true := by
  obtain ⟨d, rest, rfl⟩ := List.exists_cons_of_ne_nil hne
  have hd := hds d (by simp)
  rw [write_eq]
  split
  · split
    · exact ⟨_, _, rfl, rfl⟩
    · split
      case isTrue hpos _ =>
        obtain ⟨k, hk⟩ : ∃ k : Nat, point.toNat = k + 1 := ⟨point.toNat - 1, by omega⟩
        rw [hk]
        exact ⟨d, _, rfl, hd⟩
      case isFalse => exact ⟨d, _, rfl, hd⟩
  · exact ⟨d, _, rfl, hd⟩

end Midend.Decimal
